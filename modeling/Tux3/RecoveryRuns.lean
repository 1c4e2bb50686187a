import Tux3.Recovery

/-!
# What a replay recovers

The invariant of a volume in use ties the last entry for each block to its use, and the runs of
`balloc`, `map_bfree` and `force_delta` keep it. A replay over any bitmap file of the run then
brings the allocation map back, if logged extents are equal or apart.
-/
namespace Tux3.Recovery

open Log

/-! ## The invariant -/

/-- A bit of the bitmap as it was. -/
def Volume.bitIn (v : Volume) (bitmap : ℕ → Bytes) (b : ℕ) : Bool :=
  bitAt (bitmap (b / v.sb.mapsize)) (b % v.sb.mapsize)

/-- An extent of a stash was logged. -/
structure Volume.Deferred (v : Volume) (e : Extent) : Prop where
  inVolume : e.block + e.count ≤ v.sb.volblocks
  oneBlock : e.block % v.sb.mapsize + e.count ≤ v.sb.mapsize
  logged : ⟨e.block, e.count, false⟩ ∈ v.updates

/-- The last entry for a block says whether it is in use, and a set of blocks that is logged whole
had one value at all times since the mount. -/
structure Inv (v : Volume) : Prop where
  small : Small v.sb
  present : v.sb.bitmap ∈ v.past
  known : ∀ m ∈ v.log.marks, ¬ m.entry.Unread
  reads : ∀ u ∈ v.updates, Reads v.sb u
  deferred : ∀ e ∈ v.defree ++ v.derollup, v.Deferred e
  apart : ∀ b, (∃ e ∈ v.defree, b ∈ e.blocks) → ¬ ∃ e ∈ v.derollup, b ∈ e.blocks
  pending : ∀ b, v.Pending b → v.sb.bit b = true ∧ b ∉ v.newDecycle
  nodup : v.newDecycle.Nodup
  logBlocks : ∀ b ∈ v.newDecycle, v.sb.bit b = true
  settled : ∀ b ∉ v.newDecycle, ∀ value, Redo.last v.writes b = some value →
    (v.InUse b ↔ value = true)
  untouched : ∀ b ∉ v.newDecycle, Redo.last v.writes b = none →
    ¬ v.Pending b ∧ ∀ bitmap ∈ v.past, v.bitIn bitmap b = v.sb.bit b
  uniform : ∀ E, Redo.Whole v.writes E → (∀ b ∈ E, b ∉ v.newDecycle) →
    ∀ b ∈ E, Redo.last v.writes b ≠ none → ∀ bitmap ∈ v.past, Redo.Uniform (v.bitIn bitmap) E

theorem mount_inv {sb : Balloc.Sb} (h : Small sb) (logchain : ℕ) (logmap : ℕ → LogBlock)
    (disk : Disk) : Inv (mount sb logchain logmap disk) where
  small := h
  present := List.mem_singleton_self _
  known := nofun
  reads := nofun
  deferred := nofun
  apart := by
    rintro b ⟨e, he, -⟩
    cases he
  pending := by
    rintro b ⟨e, he, -⟩
    cases he
  nodup := List.nodup_nil
  logBlocks := nofun
  settled := by
    intro b _ value hlast
    cases hlast
  untouched := by
    intro b _ _
    refine ⟨?_, fun bitmap hmem => ?_⟩
    · rintro ⟨e, he, -⟩
      cases he
    · rw [List.mem_singleton.mp hmem]
      rfl
  uniform := fun E _ _ b _ hne => absurd rfl hne

section Steps
variable {v v' : Volume}

theorem Inv.uniform_past (h : Inv v) {E : Set ℕ} (hw : Redo.Whole v.writes E)
    (hE : ∀ b ∈ E, b ∉ v.newDecycle) {value : Bool} (hvalue : ∀ b ∈ E, v.sb.bit b = value)
    {bitmap : ℕ → Bytes} (hmem : bitmap ∈ v.past) : Redo.Uniform (v.bitIn bitmap) E := by
  intro i hi j hj
  by_cases hlast : Redo.last v.writes i = none
  · have hlast' : Redo.last v.writes j = none := (hw.last_eq hj hi).trans hlast
    rw [(h.untouched i (hE i hi) hlast).2 bitmap hmem, hvalue i hi,
      (h.untouched j (hE j hj) hlast').2 bitmap hmem, hvalue j hj]
  · exact h.uniform E hw hE i hi hlast bitmap hmem i hi j hj

theorem Inv.uniform_write (h : Inv v) {u : Update} (hvalue : ∀ b ∈ cells u, v.sb.bit b = !u.set)
    {bits : ℕ → Bool} (hin : ∀ b ∈ cells u, ∀ c ∈ cells u, bits b = bits c)
    (hout : ∀ b ∉ cells u, bits b = v.sb.bit b) {E : Set ℕ}
    (hw : Redo.Whole (v.writes ++ [write u]) E) (hE : ∀ b ∈ E, b ∉ v.newDecycle) {b : ℕ}
    (hb : b ∈ E) (hne : Redo.last (v.writes ++ [write u]) b ≠ none) :
    (∀ bitmap ∈ v.past, Redo.Uniform (v.bitIn bitmap) E) ∧ Redo.Uniform bits E := by
  obtain ⟨hold, hcells⟩ := Redo.whole_concat.mp hw
  cases hcells with
  | inl heq =>
      change cells u = E at heq
      subst heq
      exact ⟨fun bitmap hmem => h.uniform_past hold hE hvalue hmem, hin⟩
  | inr hdis =>
      have hout' : ∀ c ∈ E, c ∉ cells u := fun c hc => Set.disjoint_right.mp hdis hc
      rw [Redo.last_concat_not_mem (hout' b hb)] at hne
      have huni := h.uniform E hold hE b hb hne
      refine ⟨huni, fun i hi j hj => ?_⟩
      rw [hout i (hout' i hi), hout j (hout' j hj)]
      exact huni v.sb.bitmap h.present i hi j hj

/-- What every step does: it goes on with the history and logs the extents `us`. -/
structure After (v v' : Volume) (us : List Update) : Prop where
  kept : Kept v.sb v'.sb
  small : Small v'.sb
  past : v'.past = v.past ++ [v'.sb.bitmap]
  updates : v'.updates = v.updates ++ us
  known : ∀ m ∈ v'.log.marks, ¬ m.entry.Unread
  reads : ∀ u ∈ us, Reads v.sb u

section After
variable {us : List Update}

theorem After.writes (ha : After v v' us) : v'.writes = v.writes ++ us.map write := by
  rw [Volume.writes, ha.updates, List.map_append]
  rfl

theorem After.bitIn (ha : After v v' us) : v'.bitIn = v.bitIn := by
  funext bitmap b
  rw [Volume.bitIn, ha.kept.mapsize, Volume.bitIn]

theorem After.present (ha : After v v' us) : v'.sb.bitmap ∈ v'.past := by
  rw [ha.past]
  exact List.mem_append_right _ (List.mem_singleton_self _)

theorem After.forall_past (ha : After v v' us) {P : (ℕ → Bool) → Prop}
    (hold : ∀ bitmap ∈ v.past, P (v.bitIn bitmap)) (hnew : P v'.sb.bit) :
    ∀ bitmap ∈ v'.past, P (v'.bitIn bitmap) := by
  intro bitmap hmem
  rw [ha.past, List.mem_append, List.mem_singleton] at hmem
  cases hmem with
  | inl hmem =>
      rw [ha.bitIn]
      exact hold bitmap hmem
  | inr hmem =>
      subst hmem
      exact hnew

theorem After.all_reads (ha : After v v' us) (h : Inv v) : ∀ u ∈ v'.updates, Reads v'.sb u := by
  intro u hu
  rw [ha.updates, List.mem_append] at hu
  cases hu with
  | inl hu => exact (h.reads u hu).congr ha.kept
  | inr hu => exact (ha.reads u hu).congr ha.kept

theorem After.deferred (ha : After v v' us) {e : Extent} (h : v.Deferred e) : v'.Deferred e where
  inVolume := ha.kept.volblocks.symm ▸ h.inVolume
  oneBlock := ha.kept.mapsize.symm ▸ h.oneBlock
  logged := ha.updates.symm ▸ List.mem_append_left _ h.logged

end After

/-- A step that logs no extent and changes no bit. -/
theorem Inv.note (h : Inv v) (ha : After v v' []) (hdefree : v'.defree = v.defree)
    (hderollup : v'.derollup = v.derollup) (hnew : v'.newDecycle = v.newDecycle)
    (hbit : v'.sb.bit = v.sb.bit) : Inv v' := by
  have hwrites : v'.writes = v.writes := by simpa using ha.writes
  have hpend : v'.Pending = v.Pending := by
    unfold Volume.Pending
    rw [hdefree, hderollup]
  have hinUse : v'.InUse = v.InUse := by
    unfold Volume.InUse
    rw [hbit, hpend]
  refine
    { small := ha.small, present := ha.present, known := ha.known, reads := ha.all_reads h
      deferred := ?_, apart := ?_, pending := ?_, nodup := ?_, logBlocks := ?_, settled := ?_
      untouched := ?_, uniform := ?_ }
  · rw [hdefree, hderollup]
    exact fun e he => ha.deferred (h.deferred e he)
  · rw [hdefree, hderollup]
    exact h.apart
  · rw [hpend, hbit, hnew]
    exact h.pending
  · rw [hnew]
    exact h.nodup
  · rw [hnew, hbit]
    exact h.logBlocks
  · rw [hnew, hwrites, hinUse]
    exact h.settled
  · rw [hnew, hwrites, hpend, hbit]
    intro b hb hlast
    obtain ⟨hno, hold⟩ := h.untouched b hb hlast
    exact ⟨hno, ha.forall_past (P := fun bits => bits b = v.sb.bit b) hold (congrFun hbit b)⟩
  · rw [hwrites, hnew]
    intro E hw hE b hb hne
    have hold := h.uniform E hw hE b hb hne
    exact ha.forall_past (P := fun bits => Redo.Uniform bits E) hold (hbit ▸ hold _ h.present)

/-- `balloc` and `log_balloc`. -/
theorem Inv.take (h : Inv v) {n f : ℕ} (ht : Takes v.sb n f v'.sb)
    (ha : After v v' [⟨f, n, true⟩]) (hdefree : v'.defree = v.defree)
    (hderollup : v'.derollup = v.derollup) (hnew : v'.newDecycle = v.newDecycle) : Inv v' := by
  have hpend : v'.Pending = v.Pending := by
    unfold Volume.Pending
    rw [hdefree, hderollup]
  have hin : ∀ b ∈ cells ⟨f, n, true⟩, v'.sb.bit b = true := by
    intro b hb
    rw [ht.bits, decide_eq_true (show f ≤ b ∧ b < f + n from hb), Bool.or_true]
  have hout : ∀ b ∉ cells ⟨f, n, true⟩, v'.sb.bit b = v.sb.bit b := by
    intro b hb
    rw [ht.bits, decide_eq_false (show ¬ (f ≤ b ∧ b < f + n) from hb), Bool.or_false]
  have hup : ∀ b, v.sb.bit b = true → v'.sb.bit b = true := by
    intro b hb
    rw [ht.bits, hb, Bool.true_or]
  have hclear : ∀ b ∈ cells ⟨f, n, true⟩, ¬ v.Pending b := by
    intro b hb hp
    have hset := (h.pending b hp).1
    rw [ht.clear b hb] at hset
    cases hset
  refine
    { small := ha.small, present := ha.present, known := ha.known, reads := ha.all_reads h
      deferred := ?_, apart := ?_, pending := ?_, nodup := ?_, logBlocks := ?_, settled := ?_
      untouched := ?_, uniform := ?_ }
  · rw [hdefree, hderollup]
    exact fun e he => ha.deferred (h.deferred e he)
  · rw [hdefree, hderollup]
    exact h.apart
  · rw [hpend, hnew]
    exact fun b hb => ⟨hup b (h.pending b hb).1, (h.pending b hb).2⟩
  · rw [hnew]
    exact h.nodup
  · rw [hnew]
    exact fun b hb => hup b (h.logBlocks b hb)
  · rw [hnew, ha.writes]
    intro b hb value hlast
    unfold Volume.InUse
    rw [hpend]
    by_cases hmem : b ∈ cells ⟨f, n, true⟩
    · rw [List.map_singleton, Redo.last_concat_mem hmem] at hlast
      cases hlast
      exact iff_of_true ⟨hin b hmem, hclear b hmem⟩ rfl
    · rw [List.map_singleton, Redo.last_concat_not_mem hmem] at hlast
      rw [hout b hmem]
      exact h.settled b hb value hlast
  · rw [hnew, ha.writes, hpend]
    intro b hb hlast
    by_cases hmem : b ∈ cells ⟨f, n, true⟩
    · rw [List.map_singleton, Redo.last_concat_mem hmem] at hlast
      cases hlast
    · rw [List.map_singleton, Redo.last_concat_not_mem hmem] at hlast
      rw [hout b hmem]
      obtain ⟨hno, hold⟩ := h.untouched b hb hlast
      exact ⟨hno, ha.forall_past (P := fun bits => bits b = v.sb.bit b) hold (hout b hmem)⟩
  · rw [ha.writes, hnew]
    intro E hw hE b hb hne
    obtain ⟨hold, huni⟩ := h.uniform_write (u := ⟨f, n, true⟩) (fun b hb => ht.clear b hb)
      (fun i hi j hj => (hin i hi).trans (hin j hj).symm) hout hw hE hb hne
    exact ha.forall_past (P := fun bits => Redo.Uniform bits E) hold huni

/-- `map_bfree`. -/
theorem Inv.free (h : Inv v) {e : Extent} (ho : v.Owned e)
    (ha : After v v' [⟨e.block, e.count, false⟩]) (hsb : v'.sb = v.sb)
    (hlists : (v'.defree = v.defree ++ [e] ∧ v'.derollup = v.derollup) ∨
      (v'.defree = v.defree ∧ v'.derollup = v.derollup ++ [e]))
    (hnew : v'.newDecycle = v.newDecycle) : Inv v' := by
  have hdefer : ∀ e', e' ∈ v'.defree ++ v'.derollup ↔ e' ∈ v.defree ++ v.derollup ∨ e' = e := by
    intro e'
    rcases hlists with ⟨h1, h2⟩ | ⟨h1, h2⟩ <;> simp [h1, h2] <;> tauto
  have hpend : ∀ b, v'.Pending b ↔ v.Pending b ∨ b ∈ e.blocks := by
    intro b
    simp only [Volume.Pending, hdefer, or_and_right, exists_or, exists_eq_left]
  have hbit : v'.sb.bit = v.sb.bit := congrArg _ hsb
  -- the extent that is deferred is in neither stash before
  have hfresh : ∀ b ∈ e.blocks, (¬ ∃ e' ∈ v.defree, b ∈ e'.blocks) ∧
      ¬ ∃ e' ∈ v.derollup, b ∈ e'.blocks := by
    intro b hb
    have hno := ho.notPending b hb
    unfold Volume.Pending at hno
    constructor
    · rintro ⟨e', he', hbe'⟩
      exact hno ⟨e', List.mem_append_left _ he', hbe'⟩
    · rintro ⟨e', he', hbe'⟩
      exact hno ⟨e', List.mem_append_right _ he', hbe'⟩
  refine
    { small := ha.small, present := ha.present, known := ha.known, reads := ha.all_reads h
      deferred := ?_, apart := ?_, pending := ?_, nodup := ?_, logBlocks := ?_, settled := ?_
      untouched := ?_, uniform := ?_ }
  · intro e' he'
    rw [hdefer] at he'
    cases he' with
    | inl he' => exact ha.deferred (h.deferred e' he')
    | inr he' =>
        subst he'
        refine ⟨hsb ▸ ho.inVolume, hsb ▸ ho.oneBlock, ?_⟩
        rw [ha.updates]
        exact List.mem_append_right _ (List.mem_singleton_self _)
  · intro b
    have hapart := h.apart b
    have hnone := hfresh b
    rcases hlists with ⟨h1, h2⟩ | ⟨h1, h2⟩
    · rw [h1, h2]
      rintro ⟨e', he', hb⟩
      rw [List.mem_append, List.mem_singleton] at he'
      rcases he' with he' | rfl
      · exact hapart ⟨e', he', hb⟩
      · exact (hnone hb).2
    · rw [h1, h2]
      rintro hdefree ⟨e', he', hb⟩
      rw [List.mem_append, List.mem_singleton] at he'
      rcases he' with he' | rfl
      · exact hapart hdefree ⟨e', he', hb⟩
      · exact (hnone hb).1 hdefree
  · intro b hb
    rw [hbit, hnew]
    cases (hpend b).mp hb with
    | inl hb => exact h.pending b hb
    | inr hb => exact ⟨ho.set b hb, ho.notLog b hb⟩
  · rw [hnew]
    exact h.nodup
  · rw [hnew, hbit]
    exact h.logBlocks
  · rw [hnew, ha.writes]
    intro b hb value hlast
    unfold Volume.InUse
    rw [hbit, hpend]
    by_cases hmem : b ∈ e.blocks
    · rw [List.map_singleton, Redo.last_concat_mem hmem] at hlast
      cases hlast
      simp [hmem, write]
    · rw [List.map_singleton, Redo.last_concat_not_mem hmem] at hlast
      rw [or_iff_left hmem]
      exact h.settled b hb value hlast
  · rw [hnew, ha.writes, hbit]
    intro b hb hlast
    rw [hpend]
    by_cases hmem : b ∈ e.blocks
    · rw [List.map_singleton, Redo.last_concat_mem hmem] at hlast
      cases hlast
    · rw [List.map_singleton, Redo.last_concat_not_mem hmem] at hlast
      obtain ⟨hno, hold⟩ := h.untouched b hb hlast
      refine ⟨not_or.mpr ⟨hno, hmem⟩, ?_⟩
      exact ha.forall_past (P := fun bits => bits b = v.sb.bit b) hold (congrFun hbit b)
  · rw [ha.writes, hnew]
    intro E hw hE b hb hne
    obtain ⟨hold, huni⟩ := h.uniform_write (u := ⟨e.block, e.count, false⟩) ho.set
      (fun i hi j hj => (ho.set i hi).trans (ho.set j hj).symm) (fun _ _ => rfl) hw hE hb hne
    exact ha.forall_past (P := fun bits => Redo.Uniform bits E) hold (hbit ▸ huni)

/-- The bits after `force_delta`. -/
structure Retires (v : Volume) (blocks : List ℕ) (v' : Volume) : Prop where
  nodup : blocks.Nodup
  clear : ∀ b ∈ blocks, v.sb.bit b = false
  bits : ∀ b, v'.sb.bit b = true ↔
    (v.sb.bit b = true ∨ b ∈ blocks) ∧ ∀ e ∈ v.defree, b ∉ e.blocks
  defree : v'.defree = []
  derollup : v'.derollup = v.derollup
  newDecycle : v'.newDecycle = v.newDecycle ++ blocks

/-- `force_delta`. -/
theorem Inv.delta (h : Inv v) {blocks : List ℕ} (hr : Retires v blocks v') (ha : After v v' []) :
    Inv v' := by
  have hwrites : v'.writes = v.writes := by simpa using ha.writes
  have hpend : ∀ b, v'.Pending b ↔ ∃ e ∈ v.derollup, b ∈ e.blocks := by
    intro b
    rw [Volume.Pending, hr.defree, hr.derollup, List.nil_append]
  have hlogs : ∀ b ∉ v'.newDecycle, b ∉ v.newDecycle ∧ b ∉ blocks := by
    intro b hb
    rw [hr.newDecycle, List.mem_append, not_or] at hb
    exact hb
  -- no free is deferred of a block that was clear or has a log block
  have hkeep : ∀ b, v.sb.bit b = false ∨ b ∈ v.newDecycle → ¬ v.Pending b := by
    intro b hb hp
    obtain ⟨hset, hno⟩ := h.pending b hp
    cases hb with
    | inl hb =>
        rw [hb] at hset
        cases hset
    | inr hb => exact hno hb
  have hdefree : ∀ b, (∀ e ∈ v.defree, b ∉ e.blocks) ↔ ¬ ∃ e ∈ v.defree, b ∈ e.blocks := by
    intro b
    simp only [not_exists, not_and]
  have hsplit : ∀ b, v.Pending b ↔
      (∃ e ∈ v.defree, b ∈ e.blocks) ∨ ∃ e ∈ v.derollup, b ∈ e.blocks := by
    intro b
    simp only [Volume.Pending, List.mem_append, or_and_right, exists_or]
  refine
    { small := ha.small, present := ha.present, known := ha.known, reads := ha.all_reads h
      deferred := ?_, apart := ?_, pending := ?_, nodup := ?_, logBlocks := ?_, settled := ?_
      untouched := ?_, uniform := ?_ }
  · rw [hr.defree, hr.derollup]
    exact fun e he => ha.deferred (h.deferred e (List.mem_append_right _ he))
  · rw [hr.defree]
    rintro b ⟨e, he, -⟩
    cases he
  · intro b hb
    rw [hpend] at hb
    have hold := (hsplit b).mpr (Or.inr hb)
    obtain ⟨hset, hno⟩ := h.pending b hold
    refine ⟨(hr.bits b).mpr ⟨Or.inl hset, (hdefree b).mpr fun hd => h.apart b hd hb⟩, ?_⟩
    rw [hr.newDecycle, List.mem_append, not_or]
    exact ⟨hno, fun hmem => hkeep b (Or.inl (hr.clear b hmem)) hold⟩
  · rw [hr.newDecycle]
    refine h.nodup.append hr.nodup fun b hb hb' => ?_
    have hset := h.logBlocks b hb
    rw [hr.clear b hb'] at hset
    cases hset
  · intro b hb
    rw [hr.newDecycle, List.mem_append] at hb
    refine (hr.bits b).mpr ⟨hb.imp_left (h.logBlocks b), (hdefree b).mpr fun hd => ?_⟩
    refine hkeep b ?_ ((hsplit b).mpr (Or.inl hd))
    exact hb.symm.imp_left (hr.clear b)
  · rw [hwrites]
    intro b hb value hlast
    obtain ⟨hold, hblock⟩ := hlogs b hb
    rw [← h.settled b hold value hlast]
    unfold Volume.InUse
    rw [hr.bits, hpend, hsplit, hdefree, or_iff_left hblock, not_or, and_assoc]
  · rw [hwrites]
    intro b hb hlast
    obtain ⟨hold, hblock⟩ := hlogs b hb
    obtain ⟨hno, hpast⟩ := h.untouched b hold hlast
    rw [hsplit, not_or] at hno
    have hbit : v'.sb.bit b = v.sb.bit b := by
      rw [Bool.eq_iff_iff, hr.bits, hdefree, or_iff_left hblock]
      exact and_iff_left hno.1
    rw [hpend, hbit]
    exact ⟨hno.2, ha.forall_past (P := fun bits => bits b = v.sb.bit b) hpast hbit⟩
  · rw [hwrites]
    intro E hw hE b hb hne
    have hpast := h.uniform E hw (fun c hc => (hlogs c (hE c hc)).1) b hb hne
    refine ha.forall_past (P := fun bits => Redo.Uniform bits E) hpast fun i hi j hj => ?_
    have hsame : v.sb.bit i = v.sb.bit j := hpast _ h.present i hi j hj
    -- an extent that is retired was logged, so it takes the whole set or none of it
    have hretired : ∀ i ∈ E, ∀ j ∈ E, (∃ e ∈ v.defree, i ∈ e.blocks) →
        ∃ e ∈ v.defree, j ∈ e.blocks := by
      rintro i hi j hj ⟨e, he, hie⟩
      have hd := h.deferred e (List.mem_append_left _ he)
      cases hw _ (List.mem_map_of_mem hd.logged) with
      | inl heq => exact ⟨e, he, (Set.ext_iff.mp heq j).mpr hj⟩
      | inr hdis => exact absurd hie (Set.disjoint_right.mp hdis hi)
    rw [Bool.eq_iff_iff, hr.bits, hr.bits, hdefree, hdefree,
      or_iff_left (hlogs i (hE i hi)).2, or_iff_left (hlogs j (hE j hj)).2, hsame]
    exact and_congr_right fun _ => not_congr ⟨hretired i hi j hj, hretired j hj i hi⟩

/-! ## Every step -/

variable {act : Act}

theorem step_eq (h : v.step act = some v') :
    ∃ v₁, act.run v = some v₁ ∧ v' = { v₁ with past := v₁.past ++ [v₁.sb.bitmap] } := by
  simp only [Volume.step, Option.bind_eq_bind, Option.bind_eq_some_iff, Option.pure_def,
    Option.some.injEq] at h
  obtain ⟨v₁, hrun, rfl⟩ := h
  exact ⟨v₁, hrun, rfl⟩

theorem entry_known {w w' : Written} {e : Entry} (h : w.entry e = some w')
    (hk : ∀ m ∈ w.marks, ¬ m.entry.Unread) (he : ¬ e.Unread) :
    ∀ m ∈ w'.marks, ¬ m.entry.Unread := by
  obtain ⟨log, -, rfl⟩ := entry_eq h
  intro m hm
  cases List.mem_append.mp hm with
  | inl hm => exact hk m hm
  | inr hm =>
      rw [List.mem_singleton.mp hm]
      exact he

/-- What a step does: an allocation with its entry, no space, a free with its entry, another entry,
or a commit. -/
inductive Did (v v' : Volume) : Act → Prop where
  | balloc {n f : ℕ} {sb : Balloc.Sb} {log : Written} (takes : Takes v.sb n f sb)
      (entry : v.log.entry (.balloc f n) = some log)
      (eq : v' = { v with log := log, sb := sb, past := v.past ++ [sb.bitmap] }) :
      Did v v' (.balloc n)
  | full {n : ℕ} (eq : v' = { v with past := v.past ++ [v.sb.bitmap] }) : Did v v' (.balloc n)
  | mapBfree {isBitmap : Bool} {e : Extent} {log : Written} {entry : Entry}
      (is : entry = .bfreeOnRollup e.block e.count ∨ entry = .bfree e.block e.count)
      (logged : v.log.entry entry = some log) (sb : v'.sb = v.sb) (log_eq : v'.log = log)
      (past : v'.past = v.past ++ [v.sb.bitmap]) (newDecycle : v'.newDecycle = v.newDecycle)
      (lists : (v'.defree = v.defree ++ [e] ∧ v'.derollup = v.derollup) ∨
        (v'.defree = v.defree ∧ v'.derollup = v.derollup ++ [e])) :
      Did v v' (.mapBfree isBitmap e.block e.count)
  | log {entry : Entry} {log : Written} (logged : v.log.entry entry = some log)
      (eq : v' = { v with log := log, past := v.past ++ [v.sb.bitmap] }) : Did v v' (.log entry)
  | forceDelta {blocks : List ℕ} {sb₁ sb₂ : Balloc.Sb} {out : LogSb × Disk}
      (takes : TakesAll v.sb blocks sb₁)
      (length : blocks.length = v.log.log.lognext - v.log.log.logthis)
      (retires : retire sb₁ v.defree = some sb₂)
      (write : writeLog v.log.log v.log.disk blocks = some out)
      (eq : v' = { v with
        log := { v.log with
          log := out.1, disk := out.2, allocated := v.log.allocated + blocks.length }
        sb := sb₂
        defree := []
        newDecycle := v.newDecycle ++ blocks
        past := v.past ++ [sb₂.bitmap] }) : Did v v' .forceDelta

theorem step_did (h : Small v.sb) (hrun : v.step act = some v') : Did v v' act := by
  obtain ⟨v₁, hact, rfl⟩ := step_eq hrun
  cases act with
  | balloc n =>
      simp only [Act.run, Option.bind_eq_bind, Option.bind_eq_some_iff] at hact
      obtain ⟨⟨err, block, sb⟩, hballoc, hact⟩ := hact
      rcases balloc_takes h hballoc with ⟨rfl, f, rfl, ht⟩ | ⟨rfl, rfl⟩
      · obtain ⟨log, hlog, rfl⟩ := entry_frame hact
        exact .balloc ht hlog rfl
      · cases hact
        exact .full rfl
  | mapBfree isBitmap block count =>
      cases isBitmap with
      | true =>
          simp only [Act.run, if_true, Option.bind_eq_bind, Option.bind_eq_some_iff, Option.pure_def,
            Option.some.injEq] at hact
          obtain ⟨v₂, hentry, rfl⟩ := hact
          obtain ⟨log, hlog, rfl⟩ := entry_frame hentry
          exact @Did.mapBfree v _ true ⟨block, count⟩ log _ (Or.inl rfl) hlog rfl rfl rfl rfl
            (Or.inr ⟨rfl, rfl⟩)
      | false =>
          simp only [Act.run, Bool.false_eq_true, if_false, Option.bind_eq_bind,
            Option.bind_eq_some_iff, Option.pure_def, Option.some.injEq] at hact
          obtain ⟨v₂, hentry, rfl⟩ := hact
          obtain ⟨log, hlog, rfl⟩ := entry_frame hentry
          exact @Did.mapBfree v _ false ⟨block, count⟩ log _ (Or.inr rfl) hlog rfl rfl rfl rfl
            (Or.inl ⟨rfl, rfl⟩)
  | log entry =>
      obtain ⟨log, hlog, rfl⟩ := entry_frame hact
      exact .log hlog rfl
  | forceDelta =>
      obtain ⟨blocks, sb₁, sb₂, out, hb, hr, hw, rfl⟩ := forceDelta_eq hact
      obtain ⟨hlen, ht⟩ := ballocs_takes h hb
      exact .forceDelta ht hlen hr hw (by rw [hlen])

theorem Inv.step (h : Inv v) (honest : act.Honest v) (hrun : v.step act = some v') : Inv v' := by
  cases step_did h.small hrun with
  | balloc ht hlog heq =>
      subst heq
      refine h.take ht ⟨ht.kept, ht.small, rfl, filterMap_entry hlog,
        entry_known hlog h.known (fun hu => hu), ?_⟩ rfl rfl rfl
      intro u hu
      rw [List.mem_singleton.mp hu]
      exact ⟨ht.pos, ht.oneBlock, ht.readable⟩
  | full heq =>
      subst heq
      exact h.note ⟨Kept.refl _, h.small, rfl, (List.append_nil _).symm, h.known, nofun⟩
        rfl rfl rfl rfl
  | @mapBfree isBitmap e log entry his hlog hsb hlogEq hpast hnew hlists =>
      have ho : v.Owned e := honest
      have hknown : ¬ entry.Unread := by
        rcases his with rfl | rfl <;> exact fun hu => hu
      have hupd : entry.update.toList = [⟨e.block, e.count, false⟩] := by
        rcases his with rfl | rfl <;> rfl
      refine h.free ho ⟨hsb ▸ Kept.refl _, hsb ▸ h.small, hsb ▸ hpast, ?_, ?_, ?_⟩ hsb hlists hnew
      · rw [Volume.updates, hlogEq, filterMap_entry hlog, hupd]
        rfl
      · rw [hlogEq]
        exact entry_known hlog h.known hknown
      · intro u hu
        rw [List.mem_singleton.mp hu]
        exact ⟨ho.pos, ho.oneBlock, ho.readable⟩
  | log hlog heq =>
      obtain ⟨-, hknown, hnone⟩ := honest
      subst heq
      refine h.note ⟨Kept.refl _, h.small, rfl, ?_, entry_known hlog h.known hknown, nofun⟩
        rfl rfl rfl rfl
      refine (filterMap_entry hlog).trans ?_
      rw [hnone]
      rfl
  | @forceDelta blocks sb₁ sb₂ out ht hlen hr hw heq =>
      have hdefree : ∀ e ∈ v.defree, v.Deferred e :=
        fun e he => h.deferred e (List.mem_append_left _ he)
      obtain ⟨hbits, hkept, hsmall⟩ := retire_clears ht.small
        (fun e he => ht.kept.volblocks.symm ▸ (hdefree e he).inVolume)
        (fun e he => ht.kept.mapsize.symm ▸ (hdefree e he).oneBlock) hr
      subst heq
      refine @Inv.delta v _ h blocks ⟨ht.nodup, ht.clear, fun b => ?_, rfl, rfl, rfl⟩
        ⟨ht.kept.trans hkept, hsmall, rfl, (List.append_nil _).symm, h.known, nofun⟩
      rw [hbits, ht.bits, Bool.or_eq_true, decide_eq_true_iff]

/-! ## Runs -/

theorem Small.blocksize_le {sb : Balloc.Sb} (h : Small sb) : sb.blocksize ≤ 2 ^ 16 :=
  Nat.pow_le_pow_right (by decide) h.blockbits

theorem Kept.blocksize {sb sb' : Balloc.Sb} (h : Kept sb sb') : sb'.blocksize = sb.blocksize := by
  rw [Balloc.Sb.blocksize, h.blockbits, Balloc.Sb.blocksize]

theorem Did.opened_le (h : Did v v' act) : v.log.opened ≤ v'.log.opened := by
  cases h with
  | balloc _ hlog heq => exact heq ▸ entry_opened_le hlog
  | full heq => exact heq ▸ Nat.le_refl _
  | mapBfree _ hlog _ hlogEq => exact hlogEq ▸ entry_opened_le hlog
  | log hlog heq => exact heq ▸ entry_opened_le hlog
  | forceDelta _ _ _ _ heq => exact heq ▸ Nat.le_refl _

/-- After `force_delta` all log blocks are on the chain. -/
theorem force_done (h : Inv v) (hl : Logged v.sb.blocksize v.newDecycle v.log)
    (hrun : v.step .forceDelta = some v') :
    v'.sb.blocksize = v.sb.blocksize ∧ v'.log.allocated = v'.newDecycle.length ∧
      ∃ groups chain, Log.Done v.sb.blocksize (placed v'.newDecycle) v'.log groups chain := by
  have hinv' := @Inv.step _ _ .forceDelta h trivial hrun
  cases step_did h.small hrun with
  | forceDelta ht hlen hr hw heq =>
      obtain ⟨hbits, hkept, -⟩ := retire_clears ht.small
        (fun e he => ht.kept.volblocks.symm ▸
          (h.deferred e (List.mem_append_left _ he)).inVolume)
        (fun e he => ht.kept.mapsize.symm ▸
          (h.deferred e (List.mem_append_left _ he)).oneBlock) hr
      have hnodup := hinv'.nodup
      subst heq
      refine ⟨(ht.kept.trans hkept).blocksize, ?_,
        hl.commit h.small.blocksize_le hnodup hlen hw⟩
      rw [List.length_append, ← hl.allocated]

theorem step_logged (h : Inv v) (hl : Logged v.sb.blocksize v.newDecycle v.log)
    (honest : act.Honest v) (hrun : v.step act = some v') (hlt : v'.log.opened < 2 ^ 32) :
    Logged v'.sb.blocksize v'.newDecycle v'.log := by
  have hbs := h.small.blocksize_le
  have hdid := step_did h.small hrun
  cases hdid with
  | @balloc n f sb log ht hlog heq =>
      subst heq
      obtain ⟨out, hout, -⟩ := entry_eq hlog
      have hcount : n < 256 := Commit.logExtent_count hout
      have hin := ht.inVolume
      have hvol := h.small.volblocks
      have hvalid : (Entry.balloc f n).Valid := ⟨by omega, hcount⟩
      change Logged sb.blocksize _ _
      rw [ht.kept.blocksize]
      exact hl.entry hbs hvalid hlog hlt
  | full heq =>
      subst heq
      exact hl
  | @mapBfree isBitmap e log entry his hlog hsb hlogEq hpast hnew hlists =>
      have ho : v.Owned e := honest
      have hin := ho.inVolume
      have hvol := h.small.volblocks
      obtain ⟨out, hout, -⟩ := entry_eq hlog
      have hvalid : entry.Valid := by
        rcases his with rfl | rfl <;> exact ⟨by omega, Commit.logExtent_count hout⟩
      rw [hsb, hnew, hlogEq]
      exact hl.entry hbs hvalid hlog (hlogEq ▸ hlt)
  | log hlog heq =>
      subst heq
      exact hl.entry hbs honest.1 hlog hlt
  | forceDelta ht hlen hr hw heq =>
      obtain ⟨hsize, halloc, groups, chain, hdone⟩ := force_done h hl hrun
      rw [hsize]
      exact ⟨halloc, groups, chain, hdone.toInv⟩

end Steps

section Main
variable {sb : Balloc.Sb} {logchain : ℕ} {logmap : ℕ → LogBlock} {disk : Disk} {v v' : Volume}

theorem Run.inv (hs : Small sb) (h : Run (mount sb logchain logmap disk) v) :
    Inv v ∧ (v.log.opened < 2 ^ 32 → Logged v.sb.blocksize v.newDecycle v.log) := by
  induction h with
  | refl =>
      exact ⟨mount_inv hs logchain logmap disk,
        fun _ => ⟨rfl, [], [], (mount_done _ _ _ _ _).toInv⟩⟩
  | step act run honest next ih =>
      obtain ⟨hinv, hlogged⟩ := ih
      refine ⟨hinv.step honest next, fun hlt => ?_⟩
      have hle := (step_did hinv.small next).opened_le
      exact step_logged hinv (hlogged (Nat.lt_of_le_of_lt hle hlt)) honest next hlt

theorem Reads.block {u : Update} (h : Reads sb u) {b : ℕ} (hb : b ∈ cells u) :
    b / sb.mapsize = u.start / sb.mapsize := by
  have hdm := Nat.div_add_mod u.start sb.mapsize
  have hone := h.oneBlock
  obtain ⟨h1, h2⟩ := hb
  obtain ⟨i, rfl⟩ := Nat.exists_eq_add_of_le (show u.start / sb.mapsize * sb.mapsize ≤ b by
    rw [Nat.mul_comm]
    omega)
  rw [Nat.mul_comm] at hdm
  exact (Balloc.block_split _ (by omega)).1

end Main

/-! ## A volume of eight blocks -/

def smallVolume : Balloc.Sb where
  blockbits := 6
  volblocks := 8
  freeblocks := 8
  nextalloc := 0
  bitmap := fun _ _ => 0
  readable := fun _ => true

def smallMount : Volume := mount smallVolume 0 (fun _ => junk) fun _ => none

theorem owned_of_bits {v : Volume} {block count : ℕ} (hpos : 0 < count)
    (hvol : block + count ≤ v.sb.volblocks)
    (hone : block % v.sb.mapsize + count ≤ v.sb.mapsize) (hread : v.sb.readable = fun _ => true)
    (hset : ∀ i < count, v.sb.bit (block + i) = true)
    (hpend : ∀ e ∈ v.defree ++ v.derollup, block + count ≤ e.block ∨ e.block + e.count ≤ block)
    (hlog : ∀ b ∈ v.newDecycle, b < block ∨ block + count ≤ b) : v.Owned ⟨block, count⟩ := by
  refine ⟨hpos, hvol, hone, by rw [hread], ?_, ?_, ?_⟩
  · rintro b ⟨h1, h2⟩
    obtain ⟨i, rfl⟩ := Nat.exists_eq_add_of_le h1
    exact hset i (by change block + i < block + count at h2; omega)
  · rintro b ⟨h1, h2⟩ ⟨e, he, h3, h4⟩
    have hapart := hpend e he
    change block ≤ b at h1
    change b < block + count at h2
    omega
  · rintro b ⟨h1, h2⟩ hmem
    have hapart := hlog b hmem
    change block ≤ b at h1
    change b < block + count at h2
    omega

/-- Four blocks are allocated, freed in two parts, allocated again and cut. Over the bitmap of that
time the replay frees the first part and refuses to take it again. -/
theorem replay_loses_part : ∃ v v' : Volume, Run smallMount v ∧ v.step .forceDelta = some v' ∧
    v'.Snapshot v'.sb ∧ 0 ∉ v'.newDecycle ∧ v'.sb.bit 0 = true ∧
    (replay v'.log.disk v'.log.log.logchain (logcount v'.log.log) (fun _ => junk) v'.sb).ret = 0 ∧
    (replay v'.log.disk v'.log.log.logchain (logcount v'.log.log) (fun _ => junk) v'.sb).sb.bit 0 =
      false := by
  obtain ⟨v₁, v₂, v₃, v₄, v₅, v₆, v', h₁, h₂, h₃, h₄, h₅, h₆, h₇,
      ⟨hvol₁, hsize₁, hread₁, hset₁, hlist₁, hnew₁⟩, ⟨hvol₂, hsize₂, hread₂, hset₂, hlist₂, hnew₂⟩,
      ⟨hvol₅, hsize₅, hread₅, hset₅, hlist₅, hnew₅⟩, hlogs, hbit, hpast, hret, hlost⟩ :
      ∃ v₁ v₂ v₃ v₄ v₅ v₆ v' : Volume,
      smallMount.step (.balloc 4) = some v₁ ∧ v₁.step (.mapBfree false 2 2) = some v₂ ∧
      v₂.step (.mapBfree false 0 2) = some v₃ ∧ v₃.step .forceDelta = some v₄ ∧
      v₄.step (.balloc 4) = some v₅ ∧ v₅.step (.mapBfree false 3 1) = some v₆ ∧
      v₆.step .forceDelta = some v' ∧
      (v₁.sb.volblocks = 8 ∧ v₁.sb.mapsize = 512 ∧ (v₁.sb.readable = fun _ => true) ∧
        (∀ i < 2, v₁.sb.bit (2 + i) = true) ∧ v₁.defree ++ v₁.derollup = [] ∧ v₁.newDecycle = []) ∧
      (v₂.sb.volblocks = 8 ∧ v₂.sb.mapsize = 512 ∧ (v₂.sb.readable = fun _ => true) ∧
        (∀ i < 2, v₂.sb.bit (0 + i) = true) ∧ v₂.defree ++ v₂.derollup = [⟨2, 2⟩] ∧
        v₂.newDecycle = []) ∧
      (v₅.sb.volblocks = 8 ∧ v₅.sb.mapsize = 512 ∧ (v₅.sb.readable = fun _ => true) ∧
        (∀ i < 1, v₅.sb.bit (3 + i) = true) ∧ v₅.defree ++ v₅.derollup = [] ∧
        v₅.newDecycle = [4]) ∧
      0 ∉ v'.newDecycle ∧ v'.sb.bit 0 = true ∧ v'.sb.bitmap ∈ v'.past ∧
      (replay v'.log.disk v'.log.log.logchain (logcount v'.log.log) (fun _ => junk) v'.sb).ret = 0 ∧
      (replay v'.log.disk v'.log.log.logchain (logcount v'.log.log) (fun _ => junk) v'.sb).sb.bit 0 =
        false :=
    ⟨_, _, _, _, _, _, _, rfl, rfl, rfl, rfl, rfl, rfl, rfl,
      ⟨rfl, rfl, rfl, by decide, rfl, rfl⟩, ⟨rfl, rfl, rfl, by decide, rfl, rfl⟩,
      ⟨rfl, rfl, rfl, by decide, rfl, rfl⟩, by decide, by decide,
      List.mem_append_right _ (List.mem_singleton_self _), by decide, by decide⟩
  have howned₁ : v₁.Owned ⟨2, 2⟩ :=
    owned_of_bits (by decide) (by omega) (by simp [hsize₁]) hread₁ hset₁ (by simp [hlist₁]) (by simp [hnew₁])
  have howned₂ : v₂.Owned ⟨0, 2⟩ :=
    owned_of_bits (by decide) (by omega) (by simp [hsize₂]) hread₂ hset₂ (by simp [hlist₂]) (by simp [hnew₂])
  have howned₅ : v₅.Owned ⟨3, 1⟩ :=
    owned_of_bits (by decide) (by omega) (by simp [hsize₅]) hread₅ hset₅ (by simp [hlist₅]) (by simp [hnew₅])
  have hrun₃ : Run smallMount v₃ :=
    .step (.mapBfree false 0 2) (.step (.mapBfree false 2 2) (.step (.balloc 4) .refl trivial h₁)
      howned₁ h₂) howned₂ h₃
  have hrun₅ : Run smallMount v₅ :=
    .step (.balloc 4) (.step .forceDelta hrun₃ trivial h₄) trivial h₅
  have hrun₆ : Run smallMount v₆ := .step (.mapBfree false 3 1) hrun₅ howned₅ h₆
  exact ⟨v₆, v', hrun₆, h₇, ⟨rfl, rfl, fun m => ⟨_, hpast, rfl⟩⟩, hlogs, hbit, hret, hlost⟩

end Tux3.Recovery
