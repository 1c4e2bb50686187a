import Tux3.NameiRefines
import Mathlib.Data.Set.Card

/-!
# Runs on blocks

In every run of permitted calls the blocks of the directories list the entries of a volume whose link
counts match, and no call ends in `error`, in `BUG_ON` or with an I/O error.
-/
namespace Tux3.NameiBlocks

open Namei (Inv names subdirs)

section
variable {root i : ℕ} {fs fs' : Namei.Fs} {env : Env} {op : Op}

/-! ## Errors -/

/-- A new file that got no name and lost its link. -/
theorem inv_orphan (h : Inv root fs) (hnew : fs.used i ≠ true) (hentries : fs'.entries = fs.entries)
    (hused : ∀ j, fs'.used j = true ↔ fs.used j = true ∨ j = i)
    (hinode : ∀ j ≠ i, fs'.inode j = fs.inode j) (hfile : Namei.isDir (fs'.inode i).mode = false)
    (hlink : (fs'.inode i).nlink = 0) : Inv root fs' := by
  obtain ⟨hnames, -⟩ := h.unused hnew
  have hold : ∀ j, fs.used j = true → fs'.inode j = fs.inode j := by
    intro j hj
    refine hinode j ?_
    rintro rfl
    exact hnew hj
  have hpresent : ∀ d, Namei.Present root fs' d ↔ Namei.Present root fs d := by
    intro d
    rw [Namei.Present, Namei.Present, hused, hentries]
    by_cases hd : d = i
    · subst hd
      simp [hfile, hnew]
    · simp [hd, hinode d hd]
  refine ⟨hentries ▸ h.keys, fun e he => ?_, fun e he => ?_, hentries ▸ h.valid, ?_, fun j hj => ?_,
    fun j hj => ?_, fun j hj => ?_⟩
  · exact (hused _).mpr (Or.inl (h.inums e (hentries ▸ he)))
  · exact (hpresent _).mpr (h.dirs e (hentries ▸ he))
  · obtain ⟨h1, h2, h3⟩ := h.top
    exact ⟨(hused root).mpr (Or.inl h1), by rw [hold root h1, h2], by rw [hentries, h3]⟩
  · rw [hentries]
    by_cases hji : j = i
    · rw [hji, hnames]
      exact Nat.zero_le 1
    · exact h.single j (hinode j hji ▸ hj)
  · rcases (hused j).mp hj with hj | rfl
    · have hsub : subdirs fs'.entries fs'.inode j = subdirs fs.entries fs.inode j := by
        rw [hentries]
        exact Namei.subdirs_congr fun e he => by rw [hold _ (h.inums e he)]
      obtain ⟨h1, h2⟩ := h.links j hj
      rw [hpresent, hsub, hentries, hold j hj]
      exact ⟨h1, h2⟩
    · refine ⟨fun _ => ?_, fun hp => ?_⟩
      · rw [hlink, hentries, hnames]
      · rw [hp.2.1] at hfile
        cases hfile
  · rcases (hused j).mp hj with hj | rfl
    · rw [hold j hj]
      exact h.bound j hj
    · rw [hlink]
      exact Nat.zero_le _

/-- The errors of the operations that are no defect of the volume. -/
def Env.errors (env : Env) : List ℤ :=
  [-Namei.emlink, -Namei.enotempty, env.createErr, env.symlinkErr]

/-- The call succeeds, or returns such an error and keeps the invariant. -/
def Ends (root : ℕ) (env : Env) (res : ℤ × Namei.Fs) : Prop :=
  res.1 = 0 ∨ res.1 ∈ env.errors ∧ Inv root res.2

theorem Ends.ite {c : Prop} [Decidable c] {x y : ℤ × Namei.Fs} (ht : c → Ends root env x)
    (hf : ¬ c → Ends root env y) : Ends root env (if c then x else y) := by
  split
  · next hc => exact ht hc
  · next hc => exact hf hc

theorem ends_mknod (h : Inv root fs) (dir : ℕ) (dentry : Dentry) (mode : ℕ) :
    Ends root env (Namei.tux3Mknod env.onEntries fs dir dentry.onEntries mode) := by
  unfold Namei.tux3Mknod
  exact Ends.ite (fun _ => Or.inr ⟨by simp [Env.errors, Env.onEntries], h⟩) fun _ => Or.inl rfl

theorem ends_symlink (h : Inv root fs) (dir : ℕ) (dentry : Dentry)
    (hnew : fs.used env.inum = false) :
    Ends root env (Namei.tux3Symlink env.onEntries fs dir dentry.onEntries) := by
  unfold Namei.tux3Symlink
  refine Ends.ite (fun _ => Or.inr ⟨by simp [Env.errors, Env.onEntries], h⟩) fun _ =>
    Ends.ite (fun _ => Or.inr ⟨by simp [Env.errors, Env.onEntries], ?_⟩) fun _ => Or.inl rfl
  have hfile : Namei.isDir (Namei.sIflnk ||| Namei.sIrwxugo) = false := by decide
  refine inv_orphan h (i := env.inum) (by rw [hnew]; exact Bool.false_ne_true) rfl (fun j => ?_)
    (fun j hj => ?_) ?_ ?_
  · by_cases hj : j = env.inum
    · simp [Namei.inodeDecLinkCount, Namei.Fs.setNlink, Namei.tuxCreateInode, Env.onEntries, hj]
    · simp [Namei.inodeDecLinkCount, Namei.Fs.setNlink, Namei.tuxCreateInode, Env.onEntries, hj]
  · simp [Namei.inodeDecLinkCount, Namei.Fs.setNlink, Namei.tuxCreateInode, Env.onEntries, hj]
  · rw [Namei.inodeDecLinkCount, Namei.setNlink_mode]
    simpa [Namei.tuxCreateInode, Env.onEntries, Namei.isDir_newInode] using hfile
  · simp [Namei.inodeDecLinkCount, Namei.setNlink_nlink, Namei.tuxCreateInode, Env.onEntries,
      Namei.newInode_nlink, Namei.isDir_newInode, hfile, u32]

theorem ends_dirIsEmpty (h : Inv root fs) {d : ℕ} (hne : Namei.tuxDirIsEmpty fs d ≠ 0) :
    Ends root env (Namei.tuxDirIsEmpty fs d, fs) := by
  refine Or.inr ⟨?_, h⟩
  dsimp only
  rw [Namei.tuxDirIsEmpty] at hne ⊢
  split at hne
  · exact absurd rfl hne
  · next hall => simp [hall, Env.errors]

theorem step_ends (h : Inv root fs)
    (hop : Namei.Permitted root fs env.onEntries op.onEntries) :
    Ends root env (Namei.step env.onEntries fs op.onEntries) := by
  cases op with
  | create dir dentry mode => exact ends_mknod h dir dentry mode
  | mknod dir dentry mode => exact ends_mknod h dir dentry mode
  | mkdir dir dentry mode =>
      exact Ends.ite (fun _ => Or.inr ⟨by simp [Env.errors], h⟩) fun _ => ends_mknod h dir dentry _
  | link inode dir dentry =>
      exact Ends.ite (fun _ => Or.inr ⟨by simp [Env.errors], h⟩) fun _ => Or.inl rfl
  | symlink dir dentry => exact ends_symlink h dir dentry hop.2.2
  | unlink inode dir dentry =>
      obtain ⟨⟨-, e, he, rfl, hn, -⟩, -⟩ := hop
      left
      rw [Op.onEntries, Namei.step, Namei.tux3Unlink, plain_delDirent env h he hn]
      rfl
  | rmdir inode dir dentry =>
      obtain ⟨⟨-, e, he, rfl, hn, -⟩, -⟩ := hop
      rw [Op.onEntries, Namei.step, Namei.tux3Rmdir, plain_delDirent env h he hn]
      exact Ends.ite (ends_dirIsEmpty h) fun _ => Or.inl rfl
  | rename oldInode oldDir oldDentry newDir newDentry =>
      obtain ⟨hold, -, hnew⟩ := hop
      obtain ⟨o, -, -, -, -, hofind⟩ := Namei.rename_find h hold
      rw [Op.onEntries, Namei.step, Namei.tux3Rename, hofind]
      rcases hnew with hneg | ⟨newInode, hnew, -⟩
      · rw [hneg.1]
        exact Ends.ite (fun _ => Or.inr ⟨by simp [Env.errors], h⟩) fun _ => Or.inl rfl
      · obtain ⟨n, -, -, -, -, hnfind⟩ := Namei.rename_find h hnew
        rw [hnew.1, hnfind]
        refine Ends.ite (fun hne => ?_) fun _ => Or.inl rfl
        split at hne
        · next hisdir =>
            rw [if_pos hisdir]
            exact ends_dirIsEmpty h hne
        · exact absurd rfl hne
  | evict inode => exact Or.inl rfl

end

/-! ## Runs -/

section
variable {bits root : ℕ} {v : Volume} {fs : Namei.Fs} {env : Env} {op : Op}

theorem refines_format (mode : ℕ) (inode : ℕ → Namei.Inode) (block : ℕ → ℕ → Dir.Block) :
    Refines bits (format root mode inode block) (Namei.format root mode inode) :=
  ⟨rfl, rfl, fun d => lists_cleared (block d) (by simp [Namei.format])⟩

theorem inv_step (hinv : Inv root fs)
    (hop : Namei.Permitted root fs env.onEntries op.onEntries)
    (hmeets : ¬ Namei.ReplacesDir fs op.onEntries) :
    Inv root (Namei.step env.onEntries fs op.onEntries).2 := by
  rcases step_ends hinv hop with hok | ⟨-, hstep⟩
  · exact hinv.step hop hmeets hok
  · exact hstep

theorem Refines.replacesDir (h : Refines bits v fs) :
    Namei.ReplacesDir fs op.onEntries ↔ ReplacesDir v op := by
  cases op <;> simp [Namei.ReplacesDir, ReplacesDir, Op.onEntries, Dentry.onEntries, h.inode]

theorem Reached.refines (h : Reached bits root v) (hbits : bits ≤ 16) :
    ∃ fs, Inv root fs ∧ Refines bits v fs := by
  induction h with
  | format mode inode block hmode =>
      exact ⟨_, Inv.format mode inode hmode, refines_format mode inode block⟩
  | step h env op hop hmeets hstep ih =>
      obtain ⟨fs, hinv, hrefines⟩ := ih
      obtain ⟨v', hres, hrefines'⟩ := hrefines.step hinv hbits hop
      rw [hstep] at hres
      obtain ⟨-, rfl⟩ := Prod.mk.inj (Option.some.inj hres)
      exact ⟨_, inv_step hinv (hrefines.permitted hinv hop) fun hr =>
        hmeets (hrefines.replacesDir.mp hr), hrefines'⟩

/-! ## Counting names -/

theorem ncard_eq_countP {α β : Type*} {l : List α} {f : α → β} (h : (l.map f).Nodup) (p : α → Bool) :
    Set.ncard {b | ∃ a ∈ l, p a = true ∧ f a = b} = l.countP p := by
  classical
  have hsub : ((l.filter p).map f).Nodup := h.sublist (List.filter_sublist.map f)
  have hset : {b | ∃ a ∈ l, p a = true ∧ f a = b} = ↑((l.filter p).map f).toFinset := by
    ext b
    simp [and_assoc]
  rw [hset, Set.ncard_coe_finset, List.toFinset_card_of_nodup hsub, List.length_map,
    List.countP_eq_length_filter]

theorem Refines.names_eq (h : Refines bits v fs) (hinv : Inv root fs) (i : ℕ) :
    Set.ncard {p : ℕ × List UInt8 | Found bits v p.1 p.2 i} = names fs.entries i := by
  have hinj : Function.Injective fun p : ℕ × List UInt8 => (p.1, text p.2) := by
    intro p q heq
    obtain ⟨hd, hn⟩ := Prod.mk.inj heq
    exact Prod.ext hd (text_inj hn)
  rw [← Set.ncard_image_of_injective _ hinj, names, ← ncard_eq_countP hinv.keys]
  congr 1
  ext ⟨d, n⟩
  constructor
  · rintro ⟨⟨d, name⟩, hfound, rfl, rfl⟩
    obtain ⟨e, he, hd, hn, hi⟩ := (h.found hinv).mp hfound
    exact ⟨e, he, decide_eq_true hi, Prod.ext hd hn⟩
  · rintro ⟨e, he, hi, rfl, rfl⟩
    obtain ⟨name, hname⟩ := (h.lists e.dir).texts he rfl
    exact ⟨(e.dir, name), (h.found hinv).mpr ⟨e, he, rfl, hname, of_decide_eq_true hi⟩,
      Prod.ext rfl hname.symm⟩

theorem Refines.subdirs_eq (h : Refines bits v fs) (hinv : Inv root fs) (d : ℕ) :
    Set.ncard {name | ∃ j, Found bits v d name j ∧ Namei.isDir (v.inode j).mode = true} =
      subdirs fs.entries fs.inode d := by
  have hinj : Function.Injective fun name : List UInt8 => (d, text name) := by
    intro a b heq
    exact text_inj (Prod.mk.inj heq).2
  rw [← Set.ncard_image_of_injective _ hinj, subdirs, ← ncard_eq_countP hinv.keys]
  congr 1
  ext ⟨d', n⟩
  constructor
  · rintro ⟨name, ⟨j, hfound, hisdir⟩, rfl, rfl⟩
    obtain ⟨e, he, hd, hn, rfl⟩ := (h.found hinv).mp hfound
    exact ⟨e, he, decide_eq_true ⟨hd, h.inode ▸ hisdir⟩, Prod.ext hd hn⟩
  · rintro ⟨e, he, hkey, rfl, rfl⟩
    obtain ⟨rfl, hisdir⟩ := of_decide_eq_true hkey
    obtain ⟨name, hname⟩ := (h.lists e.dir).texts he rfl
    exact ⟨name, ⟨e.inum, (h.found hinv).mpr ⟨e, he, rfl, hname, rfl⟩, h.inode ▸ hisdir⟩,
      Prod.ext rfl hname.symm⟩

/-! ## Results -/

/-- The calls on blocks refine the calls on entries: in every state a permitted call returns what it
returns over the entries that the blocks list, and the blocks then list the entries that it leaves. -/
theorem blocks_refine_entries (hbits : bits ≤ 16) (h : Reached bits root v) :
    ∃ fs, Inv root fs ∧ Refines bits v fs ∧ ∀ env op, Permitted bits root v env op →
      Namei.Permitted root fs env.onEntries op.onEntries ∧
        Agrees bits (step bits env v op) (Namei.step env.onEntries fs op.onEntries) := by
  obtain ⟨fs, hinv, hrefines⟩ := h.refines hbits
  exact ⟨fs, hinv, hrefines, fun env op hop =>
    ⟨hrefines.permitted hinv hop, hrefines.step hinv hbits hop⟩⟩

/-- Link counts match the names that are found in the blocks, and a permitted call does not fail on
them: it returns 0, a limit, or the error of a call outside of the directory. -/
theorem blocks_keep_links (hbits : bits ≤ 16) (h : Reached bits root v) :
    (∀ i, v.used i = true →
      (Namei.isDir (v.inode i).mode = false → (v.inode i).nlink =
        Set.ncard {p : ℕ × List UInt8 | Found bits v p.1 p.2 i}) ∧
      (Present bits root v i → (v.inode i).nlink = 2 +
        Set.ncard {name | ∃ j, Found bits v i name j ∧ Namei.isDir (v.inode j).mode = true})) ∧
    ∀ env op, Permitted bits root v env op → ∃ err v', step bits env v op = some (err, v') ∧
      (err = 0 ∨ err ∈ env.errors) := by
  obtain ⟨fs, hinv, hrefines⟩ := h.refines hbits
  refine ⟨fun i hi => ?_, fun env op hop => ?_⟩
  · obtain ⟨hfile, hdir⟩ := hinv.links i (hrefines.used ▸ hi)
    rw [hrefines.names_eq hinv, hrefines.subdirs_eq hinv, hrefines.present hinv, hrefines.inode]
    exact ⟨hfile, hdir⟩
  · obtain ⟨v', hres, -⟩ := hrefines.step hinv hbits hop
    exact ⟨_, v', hres, (step_ends hinv (hrefines.permitted hinv hop)).imp_right And.left⟩

end

/-- The root directory with blocks of 256 bytes. -/
def newVolume : Volume := format 0 0o755 (fun _ => ⟨0, 0⟩) fun _ _ _ => Dir.zeroDirent

theorem newVolume_permits : Permitted 8 0 newVolume ⟨1, 0, 0⟩ (.mkdir 0 ⟨[97], none⟩ 0o755) :=
  ⟨⟨rfl, by decide, Or.inl rfl⟩, ⟨rfl, by decide, rfl, Or.inl (by decide)⟩, by decide, rfl⟩

theorem blocks_keep_links_mkdir : ∃ v, Reached 8 0 v ∧ Found 8 v 0 [97] 1 ∧ (v.inode 0).nlink = 2 +
    Set.ncard {name | ∃ j, Found 8 v 0 name j ∧ Namei.isDir (v.inode j).mode = true} := by
  have hrun := (Reached.format 0o755 (fun _ => ⟨0, 0⟩) (fun _ _ _ => Dir.zeroDirent)
    (by decide)).step _ _ newVolume_permits (fun h => h) rfl
  have hlinks := (blocks_keep_links (by decide) hrun).1 0 rfl
  exact ⟨_, hrun, ⟨(0, 0), rfl, rfl⟩, hlinks.2 ⟨rfl, by decide, Or.inl rfl⟩⟩

theorem blocks_refine_entries_mkdir : ∃ fs, Refines 8 newVolume fs ∧
    Agrees 8 (step 8 ⟨1, 0, 0⟩ newVolume (.mkdir 0 ⟨[97], none⟩ 0o755))
      (Namei.step ⟨1, 0, 0, 0, 0⟩ fs (.mkdir 0 ⟨[97], none⟩ 0o755)) := by
  have hrun : Reached 8 0 newVolume := Reached.format 0o755 _ _ (by decide)
  obtain ⟨fs, -, hrefines, hstep⟩ := blocks_refine_entries (by decide) hrun
  exact ⟨fs, hrefines, (hstep _ _ newVolume_permits).2⟩

end Tux3.NameiBlocks
