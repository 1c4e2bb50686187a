import Tux3.Writeback

/-!
# Syncing inodes

An inode is on a dirty list exactly when it is dirty, and the list has a reference to it. Each part of
a sync clears bits of one inode and makes the call that writes what they stand for, which may set
bits again; an error puts the bits back.
-/
namespace Tux3.Writeback

section
variable {s s' s'' : Sb} {held : ℕ → ℕ} {busy : ℕ → Prop} {id j : ℕ} {io : Call → ℕ → Outcome}

/-- The lists, the dirty state and the counts agree; a busy inode is on a list in any state. -/
structure Inv (s : Sb) (held : ℕ → ℕ) (busy : ℕ → Prop) : Prop where
  nodup : s.listed.Nodup
  count : ∀ id, (s.inode id).count = held id + if id ∈ s.listed then 1 else 0
  clean : ∀ id, id ∉ s.listed → (s.inode id).state = ∅
  dirty : ∀ id ∈ s.listed, ¬ busy id → (s.inode id).state ≠ ∅

/-! ## Lemmas on the parts of a state -/

@[simp] theorem setState_listed (state : Finset Flag) : (s.setState id state).listed = s.listed := rfl

@[simp] theorem setCount_listed (n : ℕ) : (s.setCount id n).listed = s.listed := rfl

@[simp] theorem setState_state_self (state : Finset Flag) :
    ((s.setState id state).inode id).state = state := by
  simp [Sb.setState]

theorem setState_of_ne (state : Finset Flag) (h : j ≠ id) :
    (s.setState id state).inode j = s.inode j := Function.update_of_ne h _ _

@[simp] theorem setState_count (state : Finset Flag) (j : ℕ) :
    ((s.setState id state).inode j).count = (s.inode j).count := by
  by_cases h : j = id
  · simp [Sb.setState, h]
  · rw [setState_of_ne state h]

@[simp] theorem setState_inum (state : Finset Flag) (j : ℕ) :
    ((s.setState id state).inode j).inum = (s.inode j).inum := by
  by_cases h : j = id
  · simp [Sb.setState, h]
  · rw [setState_of_ne state h]

@[simp] theorem setCount_state (n j : ℕ) :
    ((s.setCount id n).inode j).state = (s.inode j).state := by
  by_cases h : j = id
  · simp [Sb.setCount, h]
  · simp [Sb.setCount, h]

@[simp] theorem setCount_inum (n j : ℕ) :
    ((s.setCount id n).inode j).inum = (s.inode j).inum := by
  by_cases h : j = id
  · simp [Sb.setCount, h]
  · simp [Sb.setCount, h]

theorem setCount_count (n j : ℕ) :
    ((s.setCount id n).inode j).count = if j = id then n else (s.inode j).count := by
  by_cases h : j = id
  · simp [Sb.setCount, h]
  · simp [Sb.setCount, h]

theorem mem_listDelInit (h : s.listed.Nodup) :
    j ∈ (s.listDelInit id).listed ↔ j ∈ s.listed ∧ j ≠ id := by
  have hdirty : s.dirty.Nodup := (List.nodup_append.mp h).1
  have hsyncing : s.syncing.Nodup := (List.nodup_append.mp h).2.1
  simp only [Sb.listed, Sb.listDelInit, List.mem_append, hdirty.mem_erase_iff,
    hsyncing.mem_erase_iff]
  tauto

theorem listDelInit_nodup (h : s.listed.Nodup) : (s.listDelInit id).listed.Nodup :=
  h.sublist (List.erase_sublist.append List.erase_sublist)

theorem Inv.setState {busy' : ℕ → Prop} (h : Inv s held busy) (hid : id ∈ s.listed)
    (state : Finset Flag) (hstate : state ≠ ∅ ∨ busy' id) (hbusy : ∀ j, j ≠ id → busy j → busy' j) :
    Inv (s.setState id state) held busy' := by
  refine ⟨h.nodup, fun j => ?_, fun j hj => ?_, fun j hj hno => ?_⟩
  · rw [setState_count]
    exact h.count j
  · rw [setState_of_ne _ (by rintro rfl; exact hj hid)]
    exact h.clean j hj
  · by_cases hji : j = id
    · subst hji
      rw [setState_state_self]
      exact hstate.resolve_right hno
    · rw [setState_of_ne _ hji]
      exact h.dirty j hj fun hb => hno (hbusy j hji hb)

/-! ## References -/

/-- `list_del_init` with `iput`: the reference of the list goes. -/
theorem Inv.unlist (h : Inv s held busy) (hid : id ∈ s.listed) (hclean : (s.inode id).state = ∅) :
    (s.listDelInit id).iput id = some ((s.listDelInit id).setCount id (held id)) ∧
      Inv ((s.listDelInit id).setCount id (held id)) held fun j => busy j ∧ j ≠ id := by
  have hcount := h.count id
  rw [if_pos hid] at hcount
  have hout : id ∉ (s.listDelInit id).listed := fun hmem => ((mem_listDelInit h.nodup).mp hmem).2 rfl
  refine ⟨?_, listDelInit_nodup h.nodup, ?_, ?_, ?_⟩
  · have hstate : ((s.listDelInit id).inode id).state = ∅ := hclean
    have hc : ((s.listDelInit id).inode id).count = held id + 1 := hcount
    simp [Sb.iput, hc, hout, hstate]
  · intro j
    rw [setCount_count, setCount_listed]
    by_cases hj : j = id
    · subst hj
      simp [hout]
    · have hiff : j ∈ (s.listDelInit id).listed ↔ j ∈ s.listed := by
        rw [mem_listDelInit h.nodup]
        simp [hj]
      simp only [hj, if_false, hiff]
      exact h.count j
  · intro j hj
    rw [setCount_state]
    by_cases hji : j = id
    · subst hji
      exact hclean
    · exact h.clean j fun hmem => hj ((mem_listDelInit h.nodup).mpr ⟨hmem, hji⟩)
  · intro j hj hbusy
    rw [setCount_state]
    obtain ⟨hmem, hne⟩ := (mem_listDelInit h.nodup).mp hj
    exact h.dirty j hmem fun hb => hbusy ⟨hb, hne⟩

/-! ## Marking -/

/-- `__mark_inode_dirty` of an inode that is on no list. -/
def Sb.enlist (s : Sb) (id : ℕ) (flags : Finset Flag) : Sb :=
  { (s.setState id flags).setCount id ((s.inode id).count + 1) with dirty := s.dirty ++ [id] }

theorem mem_enlist (flags : Finset Flag) : j ∈ (s.enlist id flags).listed ↔ j ∈ s.listed ∨ j = id := by
  simp only [Sb.enlist, Sb.listed, List.mem_append, List.mem_singleton]
  tauto

theorem enlist_state (flags : Finset Flag) (j : ℕ) :
    ((s.enlist id flags).inode j).state = if j = id then flags else (s.inode j).state := by
  change (((s.setState id flags).setCount id _).inode j).state = _
  rw [setCount_state]
  split
  · next hj => rw [hj, setState_state_self]
  · next hj => rw [setState_of_ne _ hj]

theorem Inv.enlist (h : Inv s held busy) (hid : id ∉ s.listed) {flags : Finset Flag}
    (hflags : flags ≠ ∅) : Inv (s.enlist id flags) held busy := by
  refine ⟨?_, fun j => ?_, fun j hj => ?_, fun j hj hbusy => ?_⟩
  · have hnodup := h.nodup
    simp only [Sb.listed, List.mem_append, not_or, List.nodup_append] at hid hnodup
    change (s.dirty ++ [id] ++ s.syncing).Nodup
    simp only [List.nodup_append, List.mem_append, List.mem_singleton]
    grind
  · have hcount := h.count j
    simp only [mem_enlist]
    change (((s.setState id flags).setCount id _).inode j).count = _
    rw [setCount_count, setState_count]
    by_cases hj : j = id
    · subst hj
      rw [if_neg hid] at hcount
      simp [hcount]
    · simpa [hj] using hcount
  · rw [mem_enlist, not_or] at hj
    rw [enlist_state, if_neg hj.2]
    exact h.clean j hj.1
  · rw [enlist_state]
    split
    · exact hflags
    · next hji => exact h.dirty j (((mem_enlist flags).mp hj).resolve_right hji) hbusy

theorem markInodeDirty_eq (flags : Finset Flag) : s.markInodeDirty id flags =
    if flags ⊆ (s.inode id).state then some s
    else if id ∈ s.listed then some (s.setState id ((s.inode id).state ∪ flags))
    else if (s.inode id).count = 0 then none
    else some (s.enlist id ((s.inode id).state ∪ flags)) := by
  simp only [Sb.markInodeDirty, Sb.iget, setState_listed, setState_count]
  split
  · rfl
  · split
    · rfl
    · split <;> rfl

/-- What marking may do that sets bits of some kinds. -/
structure Grown (s s' : Sb) (kind : ℕ → Flag → Prop) : Prop where
  grows : ∀ j, (s.inode j).state ⊆ (s'.inode j).state
  others : ∀ j, ∀ f ∈ (s'.inode j).state, f ∉ (s.inode j).state → kind j f
  listed : ∀ j ∈ s.listed, j ∈ s'.listed
  syncing : s'.syncing = s.syncing
  calls : s'.calls = s.calls
  inum : ∀ j, (s'.inode j).inum = (s.inode j).inum
  maps : s'.bitmap = s.bitmap ∧ s'.volmap = s.volmap

theorem Grown.refl (s : Sb) (kind : ℕ → Flag → Prop) : Grown s s kind :=
  ⟨fun _ => Finset.Subset.refl _, fun _ _ hf hno => absurd hf hno, fun _ h => h, rfl, rfl, fun _ => rfl, rfl, rfl⟩

theorem Grown.trans {kind kind' : ℕ → Flag → Prop} (h : Grown s s' kind) (h' : Grown s' s'' kind') :
    Grown s s'' fun j f => kind j f ∨ kind' j f where
  grows j := (h.grows j).trans (h'.grows j)
  others j f hf hno := by
    by_cases hmid : f ∈ (s'.inode j).state
    · exact .inl (h.others j f hmid hno)
    · exact .inr (h'.others j f hf hmid)
  listed j hj := h'.listed j (h.listed j hj)
  syncing := h'.syncing.trans h.syncing
  calls := h'.calls.trans h.calls
  inum j := (h'.inum j).trans (h.inum j)
  maps := ⟨h'.maps.1.trans h.maps.1, h'.maps.2.trans h.maps.2⟩

theorem grown_setState (flags : Finset Flag) :
    Grown s (s.setState id ((s.inode id).state ∪ flags)) fun j f => j = id ∧ f ∈ flags := by
  refine ⟨fun j => ?_, fun j f hf hno => ?_, fun _ hj => hj, rfl, rfl, setState_inum _, rfl, rfl⟩
  · by_cases hj : j = id
    · subst hj
      simp
    · rw [setState_of_ne _ hj]
  · by_cases hj : j = id
    · subst hj
      rw [setState_state_self] at hf
      exact ⟨rfl, (Finset.mem_union.mp hf).resolve_left hno⟩
    · rw [setState_of_ne _ hj] at hf
      exact absurd hf hno

theorem grown_enlist (flags : Finset Flag) :
    Grown s (s.enlist id ((s.inode id).state ∪ flags)) fun j f => j = id ∧ f ∈ flags := by
  refine ⟨fun j => ?_, fun j f hf hno => ?_, fun j hj => (mem_enlist _).mpr (.inl hj), rfl, rfl,
    fun j => ?_, rfl, rfl⟩
  · rw [enlist_state]
    split
    · next hj =>
        subst hj
        exact Finset.subset_union_left
    · exact Finset.Subset.refl _
  · rw [enlist_state] at hf
    split at hf
    · next hj =>
        subst hj
        exact ⟨rfl, (Finset.mem_union.mp hf).resolve_left hno⟩
    · exact absurd hf hno
  · change (((s.setState id _).setCount id _).inode j).inum = _
    rw [setCount_inum, setState_inum]

theorem Inv.mark (h : Inv s held busy) {flags : Finset Flag}
    (hmark : s.markInodeDirty id flags = some s') :
    Inv s' held busy ∧ Grown s s' fun j f => j = id ∧ f ∈ flags := by
  rw [markInodeDirty_eq] at hmark
  split at hmark
  · obtain rfl := Option.some.inj hmark
    exact ⟨h, .refl s _⟩
  · next hflags =>
      have hne : (s.inode id).state ∪ flags ≠ ∅ := by
        intro hempty
        apply hflags
        intro f hf
        have hmem : f ∈ (s.inode id).state ∪ flags := Finset.mem_union_right _ hf
        rw [hempty] at hmem
        exact absurd hmem (Finset.notMem_empty f)
      split at hmark
      · next hid =>
          obtain rfl := Option.some.inj hmark
          exact ⟨h.setState hid _ (.inl hne) fun _ _ hb => hb, grown_setState flags⟩
      · next hid =>
          split at hmark
          · cases hmark
          · obtain rfl := Option.some.inj hmark
            exact ⟨h.enlist hid hne, grown_enlist flags⟩

theorem Inv.mark_isSome (h : Inv s held busy) (flags : Finset Flag) (hheld : 0 < held id) :
    ∃ s', s.markInodeDirty id flags = some s' := by
  have hcount := h.count id
  rw [markInodeDirty_eq]
  split
  · exact ⟨s, rfl⟩
  · split
    · exact ⟨_, rfl⟩
    · rw [if_neg (by omega)]
      exact ⟨_, rfl⟩

theorem Inv.marks {ms : List (ℕ × Finset Flag)} (h : Inv s held busy)
    (hmarks : Sb.marks ms s = some s') :
    Inv s' held busy ∧ Grown s s' fun j f => ∃ m ∈ ms, m.1 = j ∧ f ∈ m.2 := by
  induction ms generalizing s with
  | nil =>
      obtain rfl := Option.some.inj hmarks
      exact ⟨h, .refl s _⟩
  | cons m rest ih =>
      obtain ⟨s₁, hmark, hrest⟩ := Option.bind_eq_some_iff.mp hmarks
      obtain ⟨h₁, hgrown⟩ := h.mark hmark
      obtain ⟨h', hgrown'⟩ := ih h₁ hrest
      have htrans := hgrown.trans hgrown'
      refine ⟨h', { htrans with others := fun j f hf hno => ?_ }⟩
      obtain ⟨rfl, hflag⟩ | ⟨m', hm', hmark'⟩ := htrans.others j f hf hno
      · exact ⟨m, List.mem_cons_self, rfl, hflag⟩
      · exact ⟨m', List.mem_cons_of_mem _ hm', hmark'⟩

theorem Inv.marks_isSome {ms : List (ℕ × Finset Flag)} (h : Inv s held busy)
    (hheld : ∀ m ∈ ms, 0 < held m.1) : ∃ s', Sb.marks ms s = some s' := by
  induction ms generalizing s with
  | nil => exact ⟨s, rfl⟩
  | cons m rest ih =>
      obtain ⟨s₁, hmark⟩ := h.mark_isSome m.2 (hheld m List.mem_cons_self)
      obtain ⟨s', hrest⟩ := ih (h.mark hmark).1 fun m' hm' => hheld m' (List.mem_cons_of_mem _ hm')
      exact ⟨s', Option.bind_eq_some_iff.mpr ⟨s₁, hmark, hrest⟩⟩

/-! ## Calls -/

/-- A call made between two states. -/
def Sb.Made (s s' : Sb) (call : Call × ℤ) : Prop := call ∈ s'.calls.drop s.calls.length

/-- A bit that a call between two states sets. -/
def Sb.MarkedBy (io : Call → ℕ → Outcome) (s s' : Sb) (call : Call) (j : ℕ) (f : Flag) : Prop :=
  ∃ n err, s.calls.length ≤ n ∧ s'.calls[n]? = some (call, err) ∧
    ∃ m ∈ (io call n).marks, m.1 = j ∧ f ∈ m.2

def Sb.Marks (io : Call → ℕ → Outcome) (s s' : Sb) (j : ℕ) (f : Flag) : Prop :=
  ∃ call, s.MarkedBy io s' call j f

/-- A bit goes with a call that wrote it. -/
def Sb.Kept (s s' : Sb) (j : ℕ) : Prop :=
  ∀ f ∈ (s.inode j).state, f ∉ (s'.inode j).state → s.Made s' (f.call j, 0)

/-- A bit comes with a call that set it. -/
def Sb.Fresh (io : Call → ℕ → Outcome) (s s' : Sb) (j : ℕ) : Prop :=
  ∀ f ∈ (s'.inode j).state, f ∉ (s.inode j).state → s.Marks io s' j f

theorem made_left {call : Call × ℤ} (h : s.Made s' call) (hcalls : s'.calls <+: s''.calls) :
    s.Made s'' call := by
  obtain ⟨rest, hrest⟩ := hcalls
  unfold Sb.Made at h ⊢
  rw [← hrest, List.drop_append]
  exact List.mem_append_left _ h

theorem made_right {call : Call × ℤ} (h : s'.Made s'' call) (hcalls : s.calls <+: s'.calls) :
    s.Made s'' call :=
  (List.drop_sublist_drop_left _ hcalls.length_le).subset h

variable {f : Flag} {call : Call}

theorem markedBy_left (h : s.MarkedBy io s' call j f) (hcalls : s'.calls <+: s''.calls) :
    s.MarkedBy io s'' call j f := by
  obtain ⟨n, err, hn, hcall, hm⟩ := h
  refine ⟨n, err, hn, ?_, hm⟩
  obtain ⟨rest, hrest⟩ := hcalls
  rw [← hrest]
  obtain ⟨hlt, -⟩ := List.getElem?_eq_some_iff.mp hcall
  rwa [List.getElem?_append_left hlt]

theorem markedBy_right (h : s'.MarkedBy io s'' call j f) (hcalls : s.calls <+: s'.calls) :
    s.MarkedBy io s'' call j f := by
  obtain ⟨n, err, hn, hm⟩ := h
  exact ⟨n, err, hcalls.length_le.trans hn, hm⟩

theorem marks_left (h : s.Marks io s' j f) (hcalls : s'.calls <+: s''.calls) : s.Marks io s'' j f := by
  obtain ⟨call, h⟩ := h
  exact ⟨call, markedBy_left h hcalls⟩

theorem marks_right (h : s'.Marks io s'' j f) (hcalls : s.calls <+: s'.calls) : s.Marks io s'' j f := by
  obtain ⟨call, h⟩ := h
  exact ⟨call, markedBy_right h hcalls⟩

theorem Sb.Kept.trans (h : s.Kept s' j) (h' : s'.Kept s'' j) (hcalls : s.calls <+: s'.calls)
    (hcalls' : s'.calls <+: s''.calls) : s.Kept s'' j := by
  intro f hf hno
  by_cases hmid : f ∈ (s'.inode j).state
  · exact made_right (h' f hmid hno) hcalls
  · exact made_left (h f hf hmid) hcalls'

theorem Sb.Fresh.trans (h : s.Fresh io s' j) (h' : s'.Fresh io s'' j) (hcalls : s.calls <+: s'.calls)
    (hcalls' : s'.calls <+: s''.calls) : s.Fresh io s'' j := by
  intro f hf hno
  by_cases hmid : f ∈ (s'.inode j).state
  · exact marks_left (h f hmid hno) hcalls'
  · exact marks_right (h' f hf hmid) hcalls

/-- What a part of `sync_inode` may do to the state, besides what it makes of its own inode. -/
structure Part (io : Call → ℕ → Outcome) (id : ℕ) (s s' : Sb) : Prop where
  calls : s.calls <+: s'.calls
  own : ∀ call, s.Made s' call → call.1.inode = id
  grows : ∀ j, j ≠ id → (s.inode j).state ⊆ (s'.inode j).state
  fresh : ∀ j, s.Fresh io s' j
  listed : ∀ j ∈ s.listed, j ∈ s'.listed
  syncing : s'.syncing = s.syncing
  inum : ∀ j, (s'.inode j).inum = (s.inode j).inum
  maps : s'.bitmap = s.bitmap ∧ s'.volmap = s.volmap

theorem Part.refl (s : Sb) : Part io id s s :=
  ⟨List.prefix_rfl, fun call hmade => by simp [Sb.Made] at hmade, fun _ _ => Finset.Subset.refl _,
    fun _ _ hf hno => absurd hf hno, fun _ h => h, rfl, fun _ => rfl, rfl, rfl⟩

theorem made_or {call : Call × ℤ} (h : s.Made s'' call) (hcalls : s.calls <+: s'.calls)
    (hcalls' : s'.calls <+: s''.calls) : s.Made s' call ∨ s'.Made s'' call := by
  obtain ⟨rest, hrest⟩ := hcalls
  obtain ⟨rest', hrest'⟩ := hcalls'
  unfold Sb.Made at h ⊢
  rw [← hrest', ← hrest] at h ⊢
  simpa using h

theorem Part.trans (h : Part io id s s') (h' : Part io id s' s'') : Part io id s s'' where
  calls := h.calls.trans h'.calls
  own call hmade := (made_or hmade h.calls h'.calls).elim (h.own call) (h'.own call)
  grows j hj := (h.grows j hj).trans (h'.grows j hj)
  fresh j := (h.fresh j).trans (h'.fresh j) h.calls h'.calls
  listed j hj := h'.listed j (h.listed j hj)
  syncing := h'.syncing.trans h.syncing
  inum j := (h'.inum j).trans (h.inum j)
  maps := ⟨h'.maps.1.trans h.maps.1, h'.maps.2.trans h.maps.2⟩

variable {mask : Finset Flag} {err : ℤ}

/-- One part of `sync_inode`: bits of the inode are cleared, and come back when the call marks it. -/
theorem Inv.syncPart (h : Inv s held fun j => j = id) (hid : id ∈ s.listed)
    (hown : call.inode = id) (hcall : ∀ f ∈ mask, f.call id = call) (hpart : s.syncPart io id mask call = some (s', err)) :
    Inv s' held (fun j => j = id) ∧ Part io id s s' ∧ (err = 0 → s.Kept s' id) ∧
      (∀ f ∈ (s'.inode id).state, f ∈ mask → s.MarkedBy io s' call id f) := by
  unfold Sb.syncPart at hpart
  split at hpart
  · next hnone =>
      obtain ⟨rfl, rfl⟩ := Prod.mk.inj (Option.some.inj hpart)
      refine ⟨h, .refl s, fun _ f hf hno => absurd hf hno, fun f hf hmem => ?_⟩
      have hinter : f ∈ (s.inode id).state ∩ mask := Finset.mem_inter.mpr ⟨hf, hmem⟩
      rw [hnone] at hinter
      exact absurd hinter (Finset.notMem_empty f)
  · obtain ⟨s₁, hmarks, heq⟩ := Option.map_eq_some_iff.mp hpart
    obtain ⟨rfl, rfl⟩ := Prod.mk.inj heq
    set outcome := io call (s.setState id ((s.inode id).state \ mask)).calls.length with houtcome
    have hcleared : Inv { s.setState id ((s.inode id).state \ mask) with
        calls := s.calls ++ [(call, outcome.err)] } held fun j => j = id := by
      have hset : Inv (s.setState id ((s.inode id).state \ mask)) held fun j => j = id :=
        h.setState hid _ (.inr rfl) fun _ _ hb => hb
      exact ⟨hset.nodup, hset.count, hset.clean, hset.dirty⟩
    obtain ⟨h₁, hgrown⟩ := hcleared.marks hmarks
    have hfirst : s.calls <+: s₁.calls := ⟨_, hgrown.calls.symm⟩
    have hmade : s.Made s₁ (call, outcome.err) := by
      rw [Sb.Made, hgrown.calls]
      change _ ∈ (s.calls ++ [(call, outcome.err)]).drop s.calls.length
      simp
    have hmarked : ∀ j f, (∃ m ∈ outcome.marks, m.1 = j ∧ f ∈ m.2) → s.MarkedBy io s₁ call j f := by
      intro j f hm
      refine ⟨s.calls.length, outcome.err, Nat.le_refl _, ?_, hm⟩
      rw [hgrown.calls]
      change (s.calls ++ [(call, outcome.err)])[s.calls.length]? = _
      simp
    have hself := hgrown.others id
    have hgrows := hgrown.grows id
    change ∀ f ∈ _, f ∉ ((s.setState id ((s.inode id).state \ mask)).inode id).state → _ at hself
    change ((s.setState id ((s.inode id).state \ mask)).inode id).state ⊆ _ at hgrows
    rw [setState_state_self] at hself hgrows
    refine ⟨h₁, ⟨hfirst, fun c hc => ?_, fun j hj => ?_, fun j f hf hno => ?_, hgrown.listed,
      hgrown.syncing, fun j => (hgrown.inum j).trans (setState_inum _ j), hgrown.maps⟩, ?_, ?_⟩
    · rw [Sb.Made, hgrown.calls] at hc
      change c ∈ (s.calls ++ [(call, outcome.err)]).drop s.calls.length at hc
      rw [List.drop_left, List.mem_singleton] at hc
      rw [hc]
      exact hown
    · have hsub := hgrown.grows j
      change ((s.setState id _).inode j).state ⊆ _ at hsub
      rwa [setState_of_ne _ hj] at hsub
    · refine ⟨call, hmarked j f (hgrown.others j f hf ?_)⟩
      change f ∉ ((s.setState id _).inode j).state
      by_cases hj : j = id
      · subst hj
        rw [setState_state_self]
        exact fun hmem => hno (Finset.mem_sdiff.mp hmem).1
      · rw [setState_of_ne _ hj]
        exact hno
    · intro herr f hf hno
      have hmask : f ∈ mask := by
        by_contra hout
        exact hno (hgrows (Finset.mem_sdiff.mpr ⟨hf, hout⟩))
      rw [hcall f hmask, ← herr]
      exact hmade
    · intro f hf hmask
      exact hmarked id f (hself f hf fun hmem => (Finset.mem_sdiff.mp hmem).2 hmask)

/-! ## Syncing -/

/-- What syncing inodes may do to the state. -/
structure Progress (io : Call → ℕ → Outcome) (s s' : Sb) : Prop where
  calls : s.calls <+: s'.calls
  kept : ∀ j, s.Kept s' j
  fresh : ∀ j, s.Fresh io s' j
  left : ∀ j ∈ s.syncing, j ∉ s'.syncing → ∀ f ∈ (s'.inode j).state, s.Marks io s' j f
  syncing : ∀ j ∈ s'.syncing, j ∈ s.syncing
  inum : ∀ j, (s'.inode j).inum = (s.inode j).inum
  maps : s'.bitmap = s.bitmap ∧ s'.volmap = s.volmap

theorem Progress.refl (s : Sb) : Progress io s s :=
  ⟨List.prefix_rfl, fun _ _ hf hno => absurd hf hno, fun _ _ hf hno => absurd hf hno,
    fun _ h hno => absurd h hno, fun _ h => h, fun _ => rfl, rfl, rfl⟩

theorem Progress.trans (h : Progress io s s') (h' : Progress io s' s'') : Progress io s s'' where
  calls := h.calls.trans h'.calls
  kept j := (h.kept j).trans (h'.kept j) h.calls h'.calls
  fresh j := (h.fresh j).trans (h'.fresh j) h.calls h'.calls
  left := by
    intro j hj hout f hf
    by_cases hmid : j ∈ s'.syncing
    · exact marks_right (h'.left j hmid hout f hf) h.calls
    · by_cases hfmid : f ∈ (s'.inode j).state
      · exact marks_left (h.left j hj hmid f hfmid) h'.calls
      · exact marks_right (h'.fresh j f hf hfmid) h.calls
  syncing j hj := h.syncing j (h'.syncing j hj)
  inum j := (h'.inum j).trans (h.inum j)
  maps := ⟨h'.maps.1.trans h.maps.1, h'.maps.2.trans h.maps.2⟩

theorem Inv.settle {busy' : ℕ → Prop} (h : Inv s held busy)
    (hbusy : ∀ j ∈ s.listed, busy j → ¬ busy' j → (s.inode j).state ≠ ∅) : Inv s held busy' := by
  refine ⟨h.nodup, h.count, h.clean, fun j hj hno => ?_⟩
  by_cases hb : busy j
  · exact hbusy j hj hb hno
  · exact h.dirty j hj hb

/-- A part that fails: the state of the inode is put back. -/
theorem Inv.restore (h : Inv s held fun j => j = id) (hid : id ∈ s.listed) (hdirty : (s'.inode id).state ≠ ∅)
    (hpart : Part io id s' s) : Inv (s.setState id (s'.inode id).state) held (fun _ => False) ∧
      Progress io s' (s.setState id (s'.inode id).state) := by
  have hsame : ∀ j, j = id → ((s.setState id (s'.inode id).state).inode j).state =
      (s'.inode j).state := by
    rintro j rfl
    exact setState_state_self _
  refine ⟨h.setState hid _ (.inl hdirty) fun j hj hb => hj hb, hpart.calls, fun j f hf hno => ?_,
    fun j f hf hno => ?_, fun j hj hout => absurd (hpart.syncing ▸ hj) hout, fun j hj => ?_,
    fun j => (setState_inum _ j).trans (hpart.inum j), hpart.maps⟩
  · by_cases hj : j = id
    · rw [hsame j hj] at hno
      exact absurd hf hno
    · rw [setState_of_ne _ hj] at hno
      exact absurd (hpart.grows j hj hf) hno
  · by_cases hj : j = id
    · rw [hsame j hj] at hf
      exact absurd hf hno
    · rw [setState_of_ne _ hj] at hf
      exact hpart.fresh j f hf hno
  · exact hpart.syncing ▸ hj

theorem syncInode_clean (hclean : (s.inode id).state = ∅) : s.syncInode io id = some (s, 0) := by
  simp [Sb.syncInode, Sb.syncPart, hclean]

/-- `sync_inode`. -/
theorem Inv.syncInode (h : Inv s held fun _ => False)
    (hsync : s.syncInode io id = some (s', err)) : Inv s' held (fun _ => False) ∧
      Progress io s s' ∧ (∀ call, s.Made s' call → call.1.inode = id) ∧
      (err = 0 → id ∈ s'.syncing →
        s.Marks io s' id .pages ∨ ∃ f, s.MarkedBy io s' (.writeInode id) id f) := by
  by_cases hclean : (s.inode id).state = ∅
  · rw [syncInode_clean hclean] at hsync
    obtain ⟨rfl, rfl⟩ := Prod.mk.inj (Option.some.inj hsync)
    refine ⟨h, .refl s, fun call hmade => by simp [Sb.Made] at hmade, fun _ hid => ?_⟩
    exact absurd hclean (h.dirty id (List.mem_append_right _ hid) not_false)
  have hid : id ∈ s.listed := by
    by_contra hout
    exact hclean (h.clean id hout)
  have hbusy : Inv s held fun j => j = id := h.settle fun j hj hno => hno.elim
  unfold Sb.syncInode at hsync
  obtain ⟨⟨s₁, err₁⟩, hpart₁, hsync⟩ := Option.bind_eq_some_iff.mp hsync
  obtain ⟨h₁, hp₁, hkept₁, hmask₁⟩ := hbusy.syncPart hid rfl (by simp [Flag.call]) hpart₁
  have hid₁ := hp₁.listed id hid
  dsimp only at hsync
  split at hsync
  · obtain ⟨rfl, rfl⟩ := Prod.mk.inj (Option.some.inj hsync)
    obtain ⟨hinv, hprogress⟩ := h₁.restore hid₁ hclean hp₁
    exact ⟨hinv, hprogress, hp₁.own, fun herr => absurd herr ‹_›⟩
  next herr₁ =>
  obtain ⟨⟨s₂, err₂⟩, hpart₂, hsync⟩ := Option.bind_eq_some_iff.mp hsync
  obtain ⟨h₂, hp₂, hkept₂, hmask₂⟩ := h₁.syncPart hid₁ rfl (by simp [Flag.call]) hpart₂
  have hid₂ := hp₂.listed id hid₁
  have hp := hp₁.trans hp₂
  dsimp only at hsync
  split at hsync
  · obtain ⟨rfl, rfl⟩ := Prod.mk.inj (Option.some.inj hsync)
    obtain ⟨hinv, hprogress⟩ := h₂.restore hid₂ hclean hp
    exact ⟨hinv, hprogress, hp.own, fun herr => absurd herr ‹_›⟩
  next herr₂ =>
  have hkept : ∀ j, s.Kept s₂ j := by
    intro j
    by_cases hj : j = id
    · subst hj
      exact (hkept₁ (not_not.mp herr₁)).trans (hkept₂ (not_not.mp herr₂)) hp₁.calls hp₂.calls
    · exact fun f hf hno => absurd (hp.grows j hj hf) hno
  split at hsync
  · next hdone =>
    obtain ⟨hput, hinv⟩ := h₂.unlist hid₂ hdone.2
    rw [hput] at hsync
    obtain ⟨rfl, rfl⟩ := Prod.mk.inj (Option.some.inj hsync)
    have hstate : ∀ j, (((s₂.listDelInit id).setCount id (held id)).inode j).state =
        (s₂.inode j).state := fun j => setCount_state _ j
    have hmem : ∀ j, j ∈ s₂.syncing.erase id → j ∈ s.syncing := by
      intro j hj
      rw [← hp.syncing]
      exact List.mem_of_mem_erase hj
    refine ⟨hinv.settle fun j _ hb => absurd hb.1 hb.2, ⟨hp.calls, fun j f hf hno => ?_,
      fun j f hf hno => ?_, fun j hj hout f hf => ?_, hmem, fun j => ?_, hp.maps⟩, hp.own,
      fun _ hin => ?_⟩
    · exact hkept j f hf (hstate j ▸ hno)
    · exact hp.fresh j f (hstate j ▸ hf) hno
    · rw [hstate] at hf
      have hji : j = id := by
        by_contra hji
        apply hout
        change j ∈ s₂.syncing.erase id
        rw [List.mem_erase_of_ne hji, hp.syncing]
        exact hj
      rw [hji, hdone.2] at hf
      exact absurd hf (Finset.notMem_empty f)
    · exact (setCount_inum _ j).trans (hp.inum j)
    · have hnodup : s₂.syncing.Nodup := (List.nodup_append.mp h₂.nodup).2.1
      exact absurd rfl (hnodup.mem_erase_iff.mp hin).1
  · next hmore =>
    obtain ⟨rfl, rfl⟩ := Prod.mk.inj (Option.some.inj hsync)
    have hne : (s₂.inode id).state ≠ ∅ := fun hempty => hmore ⟨hclean, hempty⟩
    refine ⟨h₂.settle ?_, ⟨hp.calls, hkept, hp.fresh, fun j hj hout => ?_, fun j hj => ?_, hp.inum,
      hp.maps⟩, hp.own, fun _ _ => ?_⟩
    · rintro j - rfl -
      exact hne
    · exact absurd (hp.syncing ▸ hj) hout
    · exact hp.syncing ▸ hj
    · obtain ⟨f, hf⟩ := Finset.nonempty_iff_ne_empty.mpr hne
      cases f with
      | pages =>
          by_cases hmid : Flag.pages ∈ (s₁.inode id).state
          · exact .inl ⟨_, markedBy_left (hmask₁ _ hmid (by simp)) hp₂.calls⟩
          · exact .inl (marks_right (hp₂.fresh id _ hf hmid) hp₁.calls)
      | sync => exact .inr ⟨_, markedBy_right (hmask₂ _ hf (by simp)) hp₁.calls⟩
      | datasync => exact .inr ⟨_, markedBy_right (hmask₂ _ hf (by simp)) hp₁.calls⟩

theorem Inv.syncList {l : List ℕ} (h : Inv s held fun _ => False)
    (hsync : Sb.syncList io l s = some (s', err)) :
    Inv s' held (fun _ => False) ∧ Progress io s s' := by
  induction l generalizing s with
  | nil =>
      obtain ⟨rfl, rfl⟩ := Prod.mk.inj (Option.some.inj hsync)
      exact ⟨h, .refl s⟩
  | cons id rest ih =>
      unfold Sb.syncList at hsync
      split at hsync
      · exact ih h hsync
      · split at hsync
        · cases hsync
        · next s₁ err₁ hone =>
            obtain ⟨h₁, hp₁, -⟩ := h.syncInode hone
            split at hsync
            · obtain ⟨rfl, rfl⟩ := Prod.mk.inj (Option.some.inj hsync)
              exact ⟨h₁, hp₁⟩
            · obtain ⟨h', hp'⟩ := ih h₁ hsync
              exact ⟨h', hp₁.trans hp'⟩

theorem mem_spliceBack : j ∈ s.spliceBack.listed ↔ j ∈ s.listed := by
  simp only [Sb.spliceBack, Sb.listed, List.append_nil, List.mem_append]
  tauto

theorem Inv.spliceBack (h : Inv s held busy) : Inv s.spliceBack held busy := by
  refine ⟨?_, fun j => ?_, fun j hj => ?_, fun j hj => ?_⟩
  · change (s.syncing ++ s.dirty ++ []).Nodup
    rw [List.append_nil]
    exact List.nodup_append_comm.mp h.nodup
  · simp only [mem_spliceBack]
    exact h.count j
  · rw [mem_spliceBack] at hj
    exact h.clean j hj
  · rw [mem_spliceBack] at hj
    exact h.dirty j hj

/-- `list_splice_init` to the local list. -/
def Sb.detach (s : Sb) : Sb := { s with dirty := [], syncing := s.dirty ++ s.syncing }

theorem Inv.detach (h : Inv s held busy) : Inv s.detach held busy := ⟨h.nodup, h.count, h.clean, h.dirty⟩

/-- What `sync_inodes` does. -/
structure Synced (io : Call → ℕ → Outcome) (s s' : Sb) (err : ℤ) : Prop where
  syncing : s'.syncing = []
  kept : ∀ j, s.Kept s' j
  fresh : ∀ j, s.Fresh io s' j
  clean : err = 0 → ∀ j, ∀ f ∈ (s'.inode j).state, s.Marks io s' j f

theorem Progress.failed (h : Progress io s.detach s') (herr : err ≠ 0) : Synced io s s'.spliceBack err :=
  ⟨rfl, h.kept, h.fresh, fun hzero => absurd hzero herr⟩

theorem Inv.syncMaps (h : Inv s held fun _ => False)
    (hsync : s.syncMaps io = some (s', err)) : Inv s' held (fun _ => False) ∧
      ∃ t, Progress io s t ∧ (err ≠ 0 ∧ s' = t.spliceBack ∨ err = 0 ∧ s' = t ∧ t.syncing = []) := by
  unfold Sb.syncMaps at hsync
  obtain ⟨⟨s₁, err₁⟩, hbitmap, hsync⟩ := Option.bind_eq_some_iff.mp hsync
  obtain ⟨h₁, hp₁, -⟩ := h.syncInode hbitmap
  dsimp only at hsync
  split at hsync
  · next herr =>
    obtain ⟨rfl, rfl⟩ := Prod.mk.inj (Option.some.inj hsync)
    exact ⟨h₁.spliceBack, s₁, hp₁, .inl ⟨herr, rfl⟩⟩
  obtain ⟨⟨s₂, err₂⟩, hvolmap, hsync⟩ := Option.bind_eq_some_iff.mp hsync
  obtain ⟨h₂, hp₂, -⟩ := h₁.syncInode hvolmap
  dsimp only at hsync
  split at hsync
  · next herr =>
    obtain ⟨rfl, rfl⟩ := Prod.mk.inj (Option.some.inj hsync)
    exact ⟨h₂.spliceBack, s₂, hp₁.trans hp₂, .inl ⟨herr, rfl⟩⟩
  split at hsync
  · next hempty =>
    obtain ⟨rfl, rfl⟩ := Prod.mk.inj (Option.some.inj hsync)
    exact ⟨h₂, s₂, hp₁.trans hp₂, .inr ⟨rfl, rfl, hempty⟩⟩
  · cases hsync

/-- `sync_inodes`, with and without an error. -/
theorem Inv.syncInodes (h : Inv s held fun _ => False)
    (hsync : s.syncInodes io = some (s', err)) :
    Inv s' held (fun _ => False) ∧ Synced io s s' err := by
  unfold Sb.syncInodes at hsync
  obtain ⟨⟨s₁, err₁⟩, hlist, hsync⟩ := Option.bind_eq_some_iff.mp hsync
  obtain ⟨h₁, hp₁⟩ := h.detach.syncList hlist
  dsimp only at hsync
  split at hsync
  · next herr =>
    obtain ⟨rfl, rfl⟩ := Prod.mk.inj (Option.some.inj hsync)
    exact ⟨h₁.spliceBack, hp₁.failed herr⟩
  obtain ⟨hinv, t, hp₂, ⟨herr, rfl⟩ | ⟨rfl, rfl, hdone⟩⟩ := h₁.syncMaps hsync
  · exact ⟨hinv, (hp₁.trans hp₂).failed herr⟩
  · have hp := hp₁.trans hp₂
    refine ⟨hinv, hdone, hp.kept, hp.fresh, fun _ j f hf => ?_⟩
    by_cases hold : j ∈ s.listed
    · exact hp.left j hold (by simp [hdone]) f hf
    · refine hp.fresh j f hf fun hmem => ?_
      change f ∈ (s.inode j).state at hmem
      rw [h.clean j hold] at hmem
      exact absurd hmem (Finset.notMem_empty f)

end

end Tux3.Writeback
