import Tux3.WritebackSync

/-!
# Runs of write-back

No inode is freed that is dirty or held, and no bit is cleared without the call that writes what it
stands for. The assertions hold as long as a call does not set the bits again that it is made for.
-/
namespace Tux3.Writeback

section
variable {s s' : Sb} {held : ℕ → ℕ} {id : ℕ} {io : Call → ℕ → Outcome} {err : ℤ}

/-! ## Assertions -/

/-- The calls mark inodes that are held. Of its own inode a flush does not set the bit for pages, and
a write sets none. -/
def Regular (io : Call → ℕ → Outcome) (held : ℕ → ℕ) : Prop :=
  ∀ call n, ∀ m ∈ (io call n).marks, 0 < held m.1 ∧
    (m.1 = call.inode → call = .flushBuffers m.1 ∧ .pages ∉ m.2)

theorem Inv.syncPart_isSome (h : Inv s held fun j => j = id) (hid : id ∈ s.listed)
    (hio : Regular io held) (mask : Finset Flag) (call : Call) :
    ∃ s' err, s.syncPart io id mask call = some (s', err) := by
  unfold Sb.syncPart
  split
  · exact ⟨s, 0, rfl⟩
  · set outcome := io call (s.setState id ((s.inode id).state \ mask)).calls.length with houtcome
    have hcleared : Inv { s.setState id ((s.inode id).state \ mask) with
        calls := s.calls ++ [(call, outcome.err)] } held fun j => j = id := by
      have hset : Inv (s.setState id ((s.inode id).state \ mask)) held fun j => j = id :=
        h.setState hid _ (.inr rfl) fun _ _ hb => hb
      exact ⟨hset.nodup, hset.count, hset.clean, hset.dirty⟩
    obtain ⟨s', hmarks⟩ := hcleared.marks_isSome fun m hm => (hio call _ m hm).1
    exact ⟨s', outcome.err, Option.map_eq_some_iff.mpr ⟨s', hmarks, rfl⟩⟩

theorem Inv.syncInode_isSome (h : Inv s held fun _ => False) (hio : Regular io held) (id : ℕ) :
    ∃ s' err, s.syncInode io id = some (s', err) := by
  by_cases hclean : (s.inode id).state = ∅
  · exact ⟨s, 0, syncInode_clean hclean⟩
  have hid : id ∈ s.listed := by
    by_contra hout
    exact hclean (h.clean id hout)
  have hbusy : Inv s held fun j => j = id := h.settle fun j hj hno => hno.elim
  obtain ⟨s₁, err₁, hpart₁⟩ := hbusy.syncPart_isSome hid hio {.pages} (.flushBuffers id)
  obtain ⟨h₁, hp₁, -⟩ := hbusy.syncPart hid rfl (by simp [Flag.call]) hpart₁
  have hid₁ := hp₁.listed id hid
  obtain ⟨s₂, err₂, hpart₂⟩ := h₁.syncPart_isSome hid₁ hio {.sync, .datasync} (.writeInode id)
  obtain ⟨h₂, hp₂, -⟩ := h₁.syncPart hid₁ rfl (by simp [Flag.call]) hpart₂
  simp only [Sb.syncInode, hpart₁, hpart₂, Option.bind_eq_bind, Option.bind_some]
  split
  · exact ⟨_, _, rfl⟩
  · split
    · exact ⟨_, _, rfl⟩
    · split
      · next hdone =>
        rw [(h₂.unlist (hp₂.listed id hid₁) hdone.2).1]
        exact ⟨_, _, rfl⟩
      · exact ⟨_, _, rfl⟩

theorem Inv.syncInode_leaves (h : Inv s held fun _ => False) (hio : Regular io held)
    (hsync : s.syncInode io id = some (s', 0)) : id ∉ s'.syncing := by
  intro hid
  obtain ⟨-, -, hown, hstays⟩ := h.syncInode hsync
  rcases hstays rfl hid with ⟨call, n, err, hn, hcall, m, hm, hmid, hflag⟩ |
    ⟨f, n, err, hn, hcall, m, hm, hmid, hflag⟩
  · have hmade : s.Made s' (call, err) := by
      apply List.mem_of_getElem? (i := n - s.calls.length)
      rw [List.getElem?_drop, Nat.add_sub_cancel' hn]
      exact hcall
    exact ((hio call n m hm).2 (hmid.trans (hown _ hmade).symm)).2 hflag
  · have hflush := ((hio _ n m hm).2 hmid).1
    cases hflush

theorem Inv.syncList_isSome (l : List ℕ) (h : Inv s held fun _ => False) (hio : Regular io held) :
    ∃ s' err, Sb.syncList io l s = some (s', err) ∧ (err = 0 → ∀ j ∈ l, j ∈ s'.syncing →
      (s.inode j).inum = bitmapIno ∨ (s.inode j).inum = volmapIno) := by
  induction l generalizing s with
  | nil => exact ⟨s, 0, rfl, fun _ j hj => absurd hj List.not_mem_nil⟩
  | cons id rest ih =>
      by_cases hmap : (s.inode id).inum = bitmapIno ∨ (s.inode id).inum = volmapIno
      · obtain ⟨s', err, hrest, hleft⟩ := ih h
        refine ⟨s', err, by simpa [Sb.syncList, hmap] using hrest, fun herr j hj hin => ?_⟩
        rcases List.mem_cons.mp hj with rfl | hj
        · exact hmap
        · exact hleft herr j hj hin
      · obtain ⟨s₁, err₁, hone⟩ := h.syncInode_isSome hio id
        obtain ⟨h₁, hp₁, -⟩ := h.syncInode hone
        by_cases herr₁ : err₁ = 0
        · subst herr₁
          obtain ⟨s', err, hrest, hleft⟩ := ih h₁
          refine ⟨s', err, by simpa [Sb.syncList, hmap, hone] using hrest, fun herr j hj hin => ?_⟩
          rcases List.mem_cons.mp hj with rfl | hj
          · exact absurd ((h₁.syncList hrest).2.syncing _ hin) (h.syncInode_leaves hio hone)
          · rw [← hp₁.inum j]
            exact hleft herr j hj hin
        · exact ⟨s₁, err₁, by simp [Sb.syncList, hmap, hone, herr₁], fun herr => absurd herr herr₁⟩

theorem Inv.syncMaps_isSome (h : Inv s held fun _ => False) (hio : Regular io held)
    (hmaps : ∀ j ∈ s.syncing, j = s.bitmap ∨ j = s.volmap) :
    ∃ s' err, s.syncMaps io = some (s', err) := by
  obtain ⟨s₁, err₁, hbitmap⟩ := h.syncInode_isSome hio s.bitmap
  obtain ⟨h₁, hp₁, -⟩ := h.syncInode hbitmap
  obtain ⟨s₂, err₂, hvolmap⟩ := h₁.syncInode_isSome hio s₁.volmap
  obtain ⟨-, hp₂, -⟩ := h₁.syncInode hvolmap
  simp only [Sb.syncMaps, hbitmap, hvolmap, Option.bind_eq_bind, Option.bind_some]
  by_cases herr₁ : err₁ = 0
  · by_cases herr₂ : err₂ = 0
    · subst herr₁ herr₂
      have hempty : s₂.syncing = [] := by
        apply List.eq_nil_iff_forall_not_mem.mpr
        intro j hj
        rcases hmaps j (hp₁.syncing j (hp₂.syncing j hj)) with rfl | rfl
        · exact h.syncInode_leaves hio hbitmap (hp₂.syncing _ hj)
        · rw [← hp₁.maps.2] at hj
          exact h₁.syncInode_leaves hio hvolmap hj
      simp [hempty]
    · simp [herr₁, herr₂]
  · simp [herr₁]

theorem Inv.syncInodes_isSome (h : Inv s held fun _ => False) (hempty : s.syncing = [])
    (hio : Regular io held) (hmaps : ∀ j ∈ s.dirty, (s.inode j).inum = bitmapIno ∨
      (s.inode j).inum = volmapIno → j = s.bitmap ∨ j = s.volmap) :
    ∃ s' err, s.syncInodes io = some (s', err) := by
  obtain ⟨s₁, err, hlist, hleft⟩ := h.detach.syncList_isSome s.dirty hio
  obtain ⟨h₁, hp⟩ := h.detach.syncList hlist
  have hlist' : Sb.syncList io s.dirty { s with dirty := [], syncing := s.dirty ++ s.syncing } =
      some (s₁, err) := hlist
  simp only [Sb.syncInodes, hlist', Option.bind_eq_bind, Option.bind_some]
  by_cases herr : err = 0
  · subst herr
    obtain ⟨s', err', hsync⟩ := h₁.syncMaps_isSome hio fun j hj => by
      have hmem : j ∈ s.dirty := by simpa [Sb.detach, hempty] using hp.syncing j hj
      rw [hp.maps.1, hp.maps.2]
      exact hmaps j hmem (hleft rfl j hmem hj)
    exact ⟨s', err', by simpa using hsync⟩
  · exact ⟨s₁.spliceBack, err, by simp [herr]⟩

/-! ## References and clearing -/

theorem Inv.start (bitmap volmap : ℕ) :
    Inv ⟨fun _ => ⟨0, ∅, 0⟩, [], [], bitmap, volmap, []⟩ (fun _ => 0) fun _ => False :=
  ⟨List.nodup_nil, fun _ => rfl, fun _ _ => rfl, fun _ h => absurd h List.not_mem_nil⟩

theorem Inv.setCount {n k : ℕ} (h : Inv s held fun _ => False)
    (hcount : n = k + if id ∈ s.listed then 1 else 0) :
    Inv (s.setCount id n) (Function.update held id k) fun _ => False := by
  refine ⟨h.nodup, fun j => ?_, fun j hj => ?_, fun j hj => ?_⟩
  · rw [setCount_count]
    by_cases hj : j = id
    · subst hj
      rw [if_pos rfl, Function.update_self]
      exact hcount
    · rw [if_neg hj, Function.update_of_ne hj]
      exact h.count j
  · rw [setCount_state]
    exact h.clean j hj
  · rw [setCount_state]
    exact h.dirty j hj

theorem iget_eq (hget : s.iget id = some s') : s' = s.setCount id ((s.inode id).count + 1) := by
  unfold Sb.iget at hget
  split at hget
  · cases hget
  · exact (Option.some.inj hget).symm

theorem iput_eq (hput : s.iput id = some s') : s' = s.setCount id ((s.inode id).count - 1) := by
  unfold Sb.iput at hput
  dsimp only at hput
  split at hput
  · cases hput
  · split at hput
    · cases hput
    · exact (Option.some.inj hput).symm

theorem Inv.iget (h : Inv s held fun _ => False) (hget : s.iget id = some s') :
    Inv s' (Function.update held id (held id + 1)) fun _ => False := by
  rw [iget_eq hget]
  apply h.setCount
  rw [h.count id]
  exact Nat.add_right_comm _ _ _

theorem Inv.create (h : Inv s held fun _ => False) (inum : ℕ) (hfree : (s.inode id).count = 0) :
    Inv (s.newInode id inum) (Function.update held id (held id + 1)) fun _ => False := by
  have hcount := h.count id
  have hout : id ∉ s.listed := by
    intro hmem
    rw [if_pos hmem] at hcount
    omega
  have hother : ∀ j, j ≠ id → (s.newInode id inum).inode j = s.inode j :=
    fun j hj => Function.update_of_ne hj _ _
  have hself : (s.newInode id inum).inode id = ⟨inum, ∅, 1⟩ := Function.update_self _ _ _
  refine ⟨h.nodup, fun j => ?_, fun j hj => ?_, fun j hj => ?_⟩
  · by_cases hj : j = id
    · subst hj
      rw [hself, Function.update_self]
      change 1 = held j + 1 + if j ∈ s.listed then 1 else 0
      rw [if_neg hout] at hcount ⊢
      omega
    · rw [hother j hj, Function.update_of_ne hj]
      exact h.count j
  · by_cases hji : j = id
    · rw [hji, hself]
    · rw [hother j hji]
      exact h.clean j hj
  · rw [hother j (by rintro rfl; exact hout hj)]
    exact h.dirty j hj

/-- A holder can drop its reference, and no assertion of `free_inode` fails. -/
theorem Inv.iput_isSome (h : Inv s held fun _ => False) (hheld : 0 < held id) :
    ∃ s', s.iput id = some s' := by
  have hcount := h.count id
  have hlast : ¬ ((s.inode id).count = 1 ∧ (id ∈ s.listed ∨ (s.inode id).state ≠ ∅)) := by
    rintro ⟨hone, hdirty⟩
    have hmem : id ∈ s.listed := by
      by_contra hout
      exact hdirty.elim hout fun hne => hne (h.clean id hout)
    rw [if_pos hmem] at hcount
    omega
  simp only [Sb.iput, hlast, if_false]
  rw [if_neg (by omega)]
  exact ⟨_, rfl⟩

theorem Inv.iput (h : Inv s held fun _ => False) (hheld : 0 < held id) (hput : s.iput id = some s') :
    Inv s' (Function.update held id (held id - 1)) fun _ => False := by
  rw [iput_eq hput]
  apply h.setCount
  rw [h.count id]
  omega

theorem Inv.clearInode (h : Inv s held fun _ => False) (hclear : s.clearInode id = some s') :
    Inv s' held fun _ => False := by
  unfold Sb.clearInode at hclear
  dsimp only at hclear
  split at hclear
  · next hid =>
    have hset : Inv (s.setState id ∅) held fun j => j = id :=
      h.setState hid ∅ (.inr rfl) fun j _ hno => hno.elim
    obtain ⟨hput, hinv⟩ := hset.unlist hid (setState_state_self ∅)
    have heq : ((s.setState id ∅).listDelInit id).iput id = some s' := hclear
    rw [hput] at heq
    obtain rfl := Option.some.inj heq
    exact hinv.settle fun j _ hb => absurd hb.1 hb.2
  · next hid =>
    obtain rfl := Option.some.inj hclear
    have hdirty : s.dirty.erase id = s.dirty :=
      List.erase_of_not_mem fun hmem => hid (List.mem_append_left _ hmem)
    have hsyncing : s.syncing.erase id = s.syncing :=
      List.erase_of_not_mem fun hmem => hid (List.mem_append_right _ hmem)
    have hlisted : ((s.listDelInit id).setState id ∅).listed = s.listed := by
      simp [Sb.listed, Sb.listDelInit, Sb.setState, hdirty, hsyncing]
    refine ⟨hlisted ▸ h.nodup, fun j => ?_, fun j hj => ?_, fun j hj => ?_⟩
    · rw [setState_count, hlisted]
      exact h.count j
    · by_cases hji : j = id
      · subst hji
        exact setState_state_self ∅
      · rw [setState_of_ne _ hji]
        exact h.clean j (hlisted ▸ hj)
    · rw [hlisted] at hj
      rw [setState_of_ne _ (by rintro rfl; exact hid hj)]
      exact h.dirty j hj

/-! ## Runs -/

/-- The sequences of operations on inodes in core, with the references held outside of the dirty
list. Every operation is one of a holder of the inode. -/
inductive Run : Sb → (ℕ → ℕ) → Prop where
  | start (bitmap volmap : ℕ) : Run ⟨fun _ => ⟨0, ∅, 0⟩, [], [], bitmap, volmap, []⟩ fun _ => 0
  | create {s : Sb} {held : ℕ → ℕ} (id inum : ℕ) (h : Run s held)
      (hfree : (s.inode id).count = 0) :
      Run (s.newInode id inum) (Function.update held id (held id + 1))
  | hold {s s' : Sb} {held : ℕ → ℕ} (id : ℕ) (h : Run s held) (hheld : 0 < held id)
      (hget : s.iget id = some s') : Run s' (Function.update held id (held id + 1))
  | find {s s' : Sb} {held : ℕ → ℕ} {id : ℕ} (inum : ℕ) (h : Run s held)
      (hfind : s.findDirtyInode inum = some (s', id)) :
      Run s' (Function.update held id (held id + 1))
  | put {s s' : Sb} {held : ℕ → ℕ} (id : ℕ) (h : Run s held) (hheld : 0 < held id)
      (hput : s.iput id = some s') : Run s' (Function.update held id (held id - 1))
  | mark {s s' : Sb} {held : ℕ → ℕ} (id : ℕ) (flags : Finset Flag) (h : Run s held)
      (hheld : 0 < held id) (hmark : s.markInodeDirty id flags = some s') : Run s' held
  | clear {s s' : Sb} {held : ℕ → ℕ} (id : ℕ) (h : Run s held) (hheld : 0 < held id)
      (hclear : s.clearInode id = some s') : Run s' held
  | sync {s s' : Sb} {held : ℕ → ℕ} {err : ℤ} (io : Call → ℕ → Outcome) (h : Run s held)
      (hsync : s.syncInodes io = some (s', err)) : Run s' held

theorem clearInode_syncing (hclear : s.clearInode id = some s') : s'.syncing = s.syncing.erase id := by
  unfold Sb.clearInode at hclear
  dsimp only at hclear
  split at hclear
  · rw [iput_eq hclear]
    rfl
  · obtain rfl := Option.some.inj hclear
    rfl

theorem Run.inv (h : Run s held) : Inv s held (fun _ => False) ∧ s.syncing = [] := by
  induction h with
  | start bitmap volmap => exact ⟨.start bitmap volmap, rfl⟩
  | create id inum h hfree ih => exact ⟨ih.1.create inum hfree, ih.2⟩
  | hold id h hheld hget ih =>
      refine ⟨ih.1.iget hget, ?_⟩
      rw [iget_eq hget]
      exact ih.2
  | find inum h hfind ih =>
      obtain ⟨x, -, hfind⟩ := Option.bind_eq_some_iff.mp hfind
      obtain ⟨t, hget, hfind⟩ := Option.bind_eq_some_iff.mp hfind
      obtain ⟨rfl, rfl⟩ := Prod.mk.inj (Option.some.inj hfind)
      refine ⟨ih.1.iget hget, ?_⟩
      rw [iget_eq hget]
      exact ih.2
  | put id h hheld hput ih =>
      refine ⟨ih.1.iput hheld hput, ?_⟩
      rw [iput_eq hput]
      exact ih.2
  | mark id flags h hheld hmark ih =>
      obtain ⟨hinv, hgrown⟩ := ih.1.mark hmark
      exact ⟨hinv, hgrown.syncing.trans ih.2⟩
  | clear id h hheld hclear ih =>
      refine ⟨ih.1.clearInode hclear, ?_⟩
      rw [clearInode_syncing hclear, ih.2]
      rfl
  | sync io h hsync ih =>
      obtain ⟨hinv, hsynced⟩ := ih.1.syncInodes hsync
      exact ⟨hinv, hsynced.syncing⟩

/-- In every run: an inode is on the dirty list exactly when it is dirty; one that is dirty or held is
not freed, and a holder can drop it without an assertion that fails. `sync_inodes` clears a bit only
with a successful call for it, and when it returns 0 every bit left was set by one of its calls; when
it fails the others are dirty as before. Its own assertion holds if a call does not set the bits again
that it is made for. -/
theorem no_dirty_lost (h : Run s held) :
    (∀ id, (s.inode id).state ≠ ∅ ↔ id ∈ s.dirty) ∧
    (∀ id, 0 < held id ∨ (s.inode id).state ≠ ∅ → 0 < (s.inode id).count) ∧
    (∀ id, 0 < held id → ∃ s', s.iput id = some s') ∧
    (∀ io s' err, s.syncInodes io = some (s', err) → Synced io s s' err) ∧
    ∀ io, Regular io held → (∀ id ∈ s.dirty, (s.inode id).inum = bitmapIno ∨
      (s.inode id).inum = volmapIno → id = s.bitmap ∨ id = s.volmap) →
      ∃ s' err, s.syncInodes io = some (s', err) := by
  obtain ⟨hinv, hempty⟩ := h.inv
  have hlisted : s.listed = s.dirty := by rw [Sb.listed, hempty, List.append_nil]
  have hiff : ∀ id, (s.inode id).state ≠ ∅ ↔ id ∈ s.dirty := by
    intro id
    rw [← hlisted]
    constructor
    · intro hne
      by_contra hout
      exact hne (hinv.clean id hout)
    · intro hmem
      exact hinv.dirty id hmem not_false
  refine ⟨hiff, fun id hid => ?_, fun id hheld => hinv.iput_isSome hheld,
    fun io s' err hsync => (hinv.syncInodes hsync).2,
    fun io hio hmaps => hinv.syncInodes_isSome hempty hio hmaps⟩
  have hcount := hinv.count id
  rcases hid with hheld | hne
  · omega
  · rw [if_pos (hlisted ▸ (hiff id).mp hne)] at hcount
    omega

end

/-- Calls that set no bits and succeed. -/
def quiet : Call → ℕ → Outcome := fun _ _ => ⟨[], 0⟩

/-- A flush that changes the btree of its inode and then fails. -/
def failing : Call → ℕ → Outcome := fun _ _ => ⟨[(5, {.datasync})], -5⟩

theorem no_dirty_lost_flushed : ∃ s held s', Run s held ∧ Flag.pages ∈ (s.inode 5).state ∧
    s.syncInodes quiet = some (s', 0) ∧ s.Made s' (.flushBuffers 5, 0) ∧ 0 < (s'.inode 5).count := by
  have hrun := Run.mark 5 {.pages} (.create 5 13 (.start 0 1) rfl) (by decide) rfl
  obtain ⟨-, -, -, hsynced, -⟩ := no_dirty_lost hrun
  have hsync := Run.sync quiet hrun rfl
  obtain ⟨-, hheld, -⟩ := no_dirty_lost hsync
  exact ⟨_, _, _, hrun, by decide, rfl, (hsynced quiet _ 0 rfl).kept 5 .pages (by decide) (by decide),
    hheld 5 (.inl (by decide))⟩

theorem failed_flush_forgets : ∃ s held s₁ s₂, Run s held ∧ s.syncInodes failing = some (s₁, -5) ∧
    s.Marks failing s₁ 5 .datasync ∧ s₁.syncInodes quiet = some (s₂, 0) ∧
    s₂.calls = [(.flushBuffers 5, -5), (.flushBuffers 5, 0)] := by
  have hrun := Run.mark 5 {.pages} (.create 5 13 (.start 0 1) rfl) (by decide) rfl
  exact ⟨_, _, _, _, hrun, rfl, ⟨.flushBuffers 5, 0, -5, by decide, rfl, _, List.mem_cons_self, rfl,
    by decide⟩, rfl, rfl⟩

end Tux3.Writeback
