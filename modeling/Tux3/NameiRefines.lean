import Tux3.NameiEntries

/-!
# Operations on blocks and on entries

Each operation of `namei.c` over blocks returns what it returns over entries, and the directories
then list the entries that it leaves: `tux_create_dirent` and `tux_delete_dirent` do not fail.
-/
namespace Tux3.NameiBlocks

open Namei (Inv)

/-! ## The calls on entries -/

def Env.onEntries (env : Env) : Namei.Env := ⟨env.inum, env.createErr, env.symlinkErr, 0, 0⟩

def Dentry.onEntries (dentry : Dentry) : Namei.Dentry := ⟨text dentry.name, dentry.inode⟩

def Op.onEntries : Op → Namei.Op
  | .create dir dentry mode => .create dir dentry.onEntries mode
  | .mknod dir dentry mode => .mknod dir dentry.onEntries mode
  | .mkdir dir dentry mode => .mkdir dir dentry.onEntries mode
  | .link inode dir dentry => .link inode dir dentry.onEntries
  | .symlink dir dentry => .symlink dir dentry.onEntries
  | .unlink inode dir dentry => .unlink inode dir dentry.onEntries
  | .rmdir inode dir dentry => .rmdir inode dir dentry.onEntries
  | .rename oldInode oldDir oldDentry newDir newDentry =>
      .rename oldInode oldDir oldDentry.onEntries newDir newDentry.onEntries
  | .evict inode => .evict inode

/-- The same inodes, and directories that list the entries. -/
structure Refines (bits : ℕ) (v : Volume) (fs : Namei.Fs) : Prop where
  inode : v.inode = fs.inode
  used : v.used = fs.used
  lists : ∀ d, Lists bits (v.dir d) d fs.entries

/-- The same result, and states that agree. -/
def Agrees (bits : ℕ) (res : Option (ℤ × Volume)) (plain : ℤ × Namei.Fs) : Prop :=
  ∃ v, res = some (plain.1, v) ∧ Refines bits v plain.2

section
variable {bits root dir inode i d : ℕ} {v : Volume} {fs : Namei.Fs} {env : Env} {dentry : Dentry}
  {name nm : List UInt8} {place : ℕ × ℕ} {e : Namei.Dirent}

theorem Agrees.ite {c : Prop} [Decidable c] {a b : Option (ℤ × Volume)} {x y : ℤ × Namei.Fs}
    (ht : c → Agrees bits a x) (hf : ¬ c → Agrees bits b y) :
    Agrees bits (if c then a else b) (if c then x else y) := by
  split
  · next hc => exact ht hc
  · next hc => exact hf hc

theorem Refines.ite {c : Prop} [Decidable c] {a b : Volume} {x y : Namei.Fs}
    (ht : Refines bits a x) (hf : Refines bits b y) :
    Refines bits (if c then a else b) (if c then x else y) := by
  split
  · exact ht
  · exact hf

theorem inv_nodup (h : Inv root fs) : fs.entries.Nodup := List.Nodup.of_map _ h.keys

/-! ## States -/

theorem Refines.found (h : Refines bits v fs) (hinv : Inv root fs) : Found bits v dir name i ↔
    ∃ e ∈ fs.entries, e.dir = dir ∧ e.name = text name ∧ e.inum = i := by
  have hkey := List.inj_on_of_nodup_map hinv.keys
  constructor
  · rintro ⟨place, hfind, rfl⟩
    rcases (h.lists dir).find name with ⟨j, o, e, hat, he, hd, hn, hinum⟩ | ⟨hat, -⟩
    · obtain rfl := Except.ok.inj (hat.symm.trans hfind)
      exact ⟨e, he, hd, hn, hinum.symm⟩
    · cases hat.symm.trans hfind
  · rintro ⟨e, he, hd, hn, rfl⟩
    rcases (h.lists dir).find name with ⟨j, o, a, hat, ha, had, han, hinum⟩ | ⟨-, hno⟩
    · obtain rfl := hkey ha he (Prod.ext (had.trans hd.symm) (han.trans hn.symm))
      exact ⟨(j, o), hat, hinum⟩
    · exact absurd ⟨hd, hn⟩ (hno e he)

theorem Refines.named (h : Refines bits v fs) (hinv : Inv root fs) :
    (∃ dir name, Found bits v dir name i) ↔ ∃ e ∈ fs.entries, e.inum = i := by
  constructor
  · rintro ⟨dir, name, hfound⟩
    obtain ⟨e, he, -, -, hi⟩ := (h.found hinv).mp hfound
    exact ⟨e, he, hi⟩
  · rintro ⟨e, he, hi⟩
    obtain ⟨name, hname⟩ := (h.lists e.dir).texts he rfl
    exact ⟨e.dir, name, (h.found hinv).mpr ⟨e, he, rfl, hname, hi⟩⟩

theorem Refines.present (h : Refines bits v fs) (hinv : Inv root fs) :
    Present bits root v d ↔ Namei.Present root fs d := by
  rw [Present, Namei.Present, h.inode, h.used, h.named hinv]

theorem ValidName.onEntries (h : ValidName bits name) : Namei.ValidName (text name) := by
  obtain ⟨hempty, hdot, hdots, -⟩ := h
  refine ⟨fun heq => hempty ?_, fun heq => hdot ?_, fun heq => hdots ?_⟩
  · exact text_inj heq
  · exact text_inj (b := [46]) heq
  · exact text_inj (b := [46, 46]) heq

theorem Refines.negative (h : Refines bits v fs) (hneg : Negative bits v dir dentry) :
    Namei.Negative fs dir dentry.onEntries := by
  refine ⟨hneg.1, hneg.2.1.onEntries, ?_⟩
  rcases (h.lists dir).find dentry.name with ⟨j, o, e, hat, -⟩ | ⟨-, hno⟩
  · cases hat.symm.trans hneg.2.2.1
  · exact hno

theorem Refines.positive (h : Refines bits v fs) (hinv : Inv root fs)
    (hpos : Positive bits v dir dentry inode) : Namei.Positive fs dir dentry.onEntries inode :=
  ⟨hpos.1, (h.found hinv).mp hpos.2⟩

theorem Refines.permitted (h : Refines bits v fs) (hinv : Inv root fs) {op : Op}
    (hop : Permitted bits root v env op) : Namei.Permitted root fs env.onEntries op.onEntries := by
  cases op with
  | create dir dentry mode =>
      obtain ⟨hdir, hneg, hmode, hnew⟩ := hop
      exact ⟨(h.present hinv).mp hdir, h.negative hneg, hmode, h.used ▸ hnew⟩
  | mknod dir dentry mode =>
      obtain ⟨hdir, hneg, hmode, hnew⟩ := hop
      exact ⟨(h.present hinv).mp hdir, h.negative hneg, hmode, h.used ▸ hnew⟩
  | mkdir dir dentry mode =>
      obtain ⟨hdir, hneg, hmode, hnew⟩ := hop
      exact ⟨(h.present hinv).mp hdir, h.negative hneg, hmode, h.used ▸ hnew⟩
  | link inode dir dentry =>
      obtain ⟨hdir, hneg, hfile, hname⟩ := hop
      exact ⟨(h.present hinv).mp hdir, h.negative hneg, h.inode ▸ hfile, (h.named hinv).mp hname⟩
  | symlink dir dentry =>
      obtain ⟨hdir, hneg, hnew⟩ := hop
      exact ⟨(h.present hinv).mp hdir, h.negative hneg, h.used ▸ hnew⟩
  | unlink inode dir dentry => exact ⟨h.positive hinv hop.1, h.inode ▸ hop.2⟩
  | rmdir inode dir dentry => exact ⟨h.positive hinv hop.1, h.inode ▸ hop.2⟩
  | rename oldInode oldDir oldDentry newDir newDentry =>
      obtain ⟨hold, hdir, hneg | ⟨newInode, hnew, hne, hkind⟩⟩ := hop
      · exact ⟨h.positive hinv hold, (h.present hinv).mp hdir, Or.inl (h.negative hneg)⟩
      · exact ⟨h.positive hinv hold, (h.present hinv).mp hdir,
          Or.inr ⟨newInode, h.positive hinv hnew, hne, h.inode ▸ hkind⟩⟩
  | evict inode => exact ⟨h.used ▸ hop.1, h.inode ▸ hop.2⟩

/-! ## Steps of the operations -/

theorem Refines.setNlink (h : Refines bits v fs) (i : ℕ) (f : ℕ → ℕ) :
    Refines bits (v.setNlink i f) (fs.setNlink i f) := by
  refine ⟨?_, h.used, h.lists⟩
  rw [Volume.setNlink, Namei.Fs.setNlink, h.inode]

theorem Refines.clearSize (h : Refines bits v fs) (hno : ∀ e ∈ fs.entries, e.dir ≠ i) :
    Refines bits (clearSize v i) fs := by
  refine ⟨h.inode, h.used, fun d => ?_⟩
  by_cases hd : d = i
  · subst hd
    simpa [NameiBlocks.clearSize] using lists_cleared _ hno
  · simpa [NameiBlocks.clearSize, hd] using h.lists d

theorem Refines.createInode (h : Refines bits v fs) (hinv : Inv root fs)
    (hnew : fs.used env.inum = false) (dir mode : ℕ) :
    Refines bits (tuxCreateInode env v dir mode)
      (Namei.tuxCreateInode env.onEntries fs dir mode) := by
  have hno := (hinv.unused (by rw [hnew]; exact Bool.false_ne_true)).2
  refine ⟨?_, ?_, fun d => ?_⟩
  · simp only [tuxCreateInode, Namei.tuxCreateInode, Env.onEntries, h.inode]
  · simp only [tuxCreateInode, Namei.tuxCreateInode, Env.onEntries, h.used]
  · exact (h.clearSize hno).lists d

theorem Refines.createDirent (h : Refines bits v fs) (hbits : bits ≤ 16)
    (hvalid : ValidName bits name)
    (hnew : ∀ e ∈ fs.entries, ¬ (e.dir = dir ∧ e.name = text name))
    (hbelow : Dir.BelowLimit bits (v.dir dir) name.length) (inum : ℕ) :
    ∃ v', tuxCreateDirent bits v dir name inum = some (0, v') ∧
      Refines bits v' (Namei.tuxAddDirent fs dir (text name) inum) ∧
      ∀ d nm place, ¬ (d = dir ∧ nm = name) → tuxFindDirent bits v d nm = .ok place →
        tuxFindDirent bits v' d nm = .ok place := by
  obtain ⟨dir', offset, hcreate, hlists, hstay⟩ := (h.lists dir).create hbits
    (List.length_pos_of_ne_nil hvalid.1) hvalid.2.2.2.2 hnew hbelow inum (v.inode inum).mode
  refine ⟨{ v with dir := Function.update v.dir dir dir' }, by rw [tuxCreateDirent, hcreate],
    ⟨h.inode, h.used, fun d => ?_⟩, fun d nm place hkey hfind => ?_⟩
  · by_cases hd : d = dir
    · subst hd
      simpa [Namei.tuxAddDirent, h.inode] using hlists
    · dsimp only
      rw [Function.update_of_ne hd]
      refine (h.lists d).congr fun e he => ?_
      have hne : e.dir ≠ dir := fun heq => hd (he.symm.trans heq)
      simp only [Namei.tuxAddDirent, List.mem_append, List.mem_singleton, or_iff_left_iff_imp]
      rintro rfl
      exact absurd rfl hne
  · by_cases hd : d = dir
    · subst hd
      simpa [tuxFindDirent] using hstay nm (fun hnm => hkey ⟨rfl, hnm⟩) place hfind
    · simpa [tuxFindDirent, hd] using hfind

theorem Refines.deleteDirent (h : Refines bits v fs) (hnodup : fs.entries.Nodup)
    (he : e ∈ fs.entries) (hd : e.dir = dir) (hn : e.name = text name)
    (hfind : tuxFindDirent bits v dir name = .ok place) :
    ∃ v', tuxDeleteDirent v dir place = some (0, v') ∧
      Refines bits v' (Namei.tuxDeleteDirent fs e) := by
  obtain ⟨b, hdelete, hlists⟩ := (h.lists dir).delete hnodup he hd hn hfind
  refine ⟨v.setBlock dir place.1 b, by rw [tuxDeleteDirent, hdelete], h.inode, h.used,
    fun d => ?_⟩
  by_cases hdd : d = dir
  · subst hdd
    simpa [Volume.setBlock, Namei.tuxDeleteDirent] using hlists
  · rw [Volume.setBlock]
    dsimp only
    rw [Function.update_of_ne hdd]
    refine (h.lists d).congr fun a ha => ?_
    exact List.mem_erase_of_ne fun heq => hdd (by rw [← ha, heq, hd])

theorem Refines.updateDirent (h : Refines bits v fs) (hnodup : fs.entries.Nodup)
    (he : e ∈ fs.entries) (hd : e.dir = dir) (hn : e.name = text name)
    (hfind : tuxFindDirent bits v dir name = .ok place) (inum : ℕ) :
    Refines bits (tuxUpdateDirent v dir place inum) (Namei.tuxUpdateDirent fs e inum) ∧
      ∀ d nm place', ¬ (d = dir ∧ nm = name) → tuxFindDirent bits v d nm = .ok place' →
        tuxFindDirent bits (tuxUpdateDirent v dir place inum) d nm = .ok place' := by
  obtain ⟨hlists, hstay⟩ := (h.lists dir).retarget hnodup he hd hn hfind inum (v.inode inum).mode
  have hdir : (tuxUpdateDirent v dir place inum).dir dir =
      retarget (v.dir dir) place.1 place.2 inum (Dir.tuxTypeByMode (v.inode inum).mode) := by
    simp [tuxUpdateDirent, Volume.setBlock, Volume.entry, retarget]
  have hother : ∀ d ≠ dir, (tuxUpdateDirent v dir place inum).dir d = v.dir d := by
    intro d hdd
    simp [tuxUpdateDirent, Volume.setBlock, hdd]
  refine ⟨⟨h.inode, h.used, fun d => ?_⟩, fun d nm place' hkey hat => ?_⟩
  · by_cases hdd : d = dir
    · subst hdd
      rw [hdir]
      simpa [Namei.tuxUpdateDirent, h.inode] using hlists
    · rw [hother d hdd]
      refine (h.lists d).congr fun a ha => ?_
      have hne : a.dir ≠ dir := fun heq => hdd (ha.symm.trans heq)
      rw [Namei.tuxUpdateDirent, (Namei.replace_perm he).mem_iff, List.mem_cons]
      constructor
      · rintro (rfl | ha)
        · exact absurd hd hne
        · exact List.mem_of_mem_erase ha
      · intro ha
        exact Or.inr ((List.mem_erase_of_ne fun heq => hne (by rw [heq, hd])).mpr ha)
  · rw [tuxFindDirent] at hat ⊢
    by_cases hdd : d = dir
    · subst hdd
      rw [hdir]
      exact hstay nm (fun hnm => hkey ⟨rfl, hnm⟩) place' hat
    · rwa [hother d hdd]

theorem Refines.dirIsEmpty (h : Refines bits v fs) (hinv : Inv root fs) :
    tuxDirIsEmpty bits v d = some (Namei.tuxDirIsEmpty fs d) := by
  have hiff := @Namei.dirIsEmpty_iff root fs d hinv
  rcases (h.lists d).isEmpty hinv.valid with ⟨heq, hno⟩ | ⟨heq, e, he, hd⟩
  · rw [heq, hiff.mpr hno]
  · have hne : Namei.tuxDirIsEmpty fs d ≠ 0 := fun hz => hiff.mp hz e he hd
    rw [Namei.tuxDirIsEmpty] at hne ⊢
    split at hne
    · exact absurd rfl hne
    · next hall => rw [heq, if_neg hall]

theorem plain_delDirent (env : Env) (hinv : Inv root fs) (he : e ∈ fs.entries)
    (hn : e.name = text dentry.name) : Namei.tuxDelDirent env.onEntries fs e.dir dentry.onEntries =
      (0, Namei.tuxDeleteDirent fs e) := by
  have hat : Namei.tuxFindDirent fs e.dir dentry.onEntries.name = some e := by
    rw [Dentry.onEntries, ← hn]
    exact Namei.find_eq hinv he
  rw [Namei.tuxDelDirent, hat]
  rfl

theorem Refines.delDirent (env : Env) (h : Refines bits v fs) (hinv : Inv root fs)
    (hpos : Positive bits v dir dentry inode) :
    ∃ v' e, tuxDelDirent bits v dir dentry.name = some (0, v') ∧
      Namei.tuxDelDirent env.onEntries fs dir dentry.onEntries =
        (0, Namei.tuxDeleteDirent fs e) ∧ Refines bits v' (Namei.tuxDeleteDirent fs e) := by
  obtain ⟨e, he, rfl, hn, -⟩ := (h.found hinv).mp hpos.2
  obtain ⟨place, hfind, -⟩ := hpos.2
  obtain ⟨v', hdelete, hrefines⟩ := h.deleteDirent (inv_nodup hinv) he rfl hn hfind
  refine ⟨v', e, ?_, plain_delDirent env hinv he hn, hrefines⟩
  rw [tuxDelDirent, hfind]
  exact hdelete

/-! ## The operations -/

theorem Refines.mknod (h : Refines bits v fs) (hinv : Inv root fs) (hbits : bits ≤ 16)
    (hdir : fs.used dir = true) (hneg : Negative bits v dir dentry)
    (hnew : fs.used env.inum = false) (mode : ℕ) :
    Agrees bits (tux3Mknod bits env v dir dentry mode)
      (Namei.tux3Mknod env.onEntries fs dir dentry.onEntries mode) := by
  unfold tux3Mknod Namei.tux3Mknod
  refine Agrees.ite (fun _ => ⟨v, rfl, h⟩) fun _ => ?_
  have hne : dir ≠ env.inum := by
    rintro rfl
    rw [hnew] at hdir
    cases hdir
  have hbelow : Dir.BelowLimit bits ((tuxCreateInode env v dir mode).dir dir)
      dentry.name.length := by
    simpa [tuxCreateInode, hne] using hneg.2.2.2
  obtain ⟨v', hcreate, hrefines, -⟩ := (h.createInode hinv hnew dir mode).createDirent hbits
    hneg.2.1 (h.negative hneg).2.2 hbelow env.inum
  rw [hcreate]
  refine ⟨_, rfl, ?_⟩
  rw [hrefines.inode]
  exact Refines.ite (hrefines.setNlink dir _) hrefines

theorem Refines.mkdir (h : Refines bits v fs) (hinv : Inv root fs) (hbits : bits ≤ 16)
    (hdir : fs.used dir = true) (hneg : Negative bits v dir dentry)
    (hnew : fs.used env.inum = false) (mode : ℕ) :
    Agrees bits (tux3Mkdir bits env v dir dentry mode)
      (Namei.tux3Mkdir env.onEntries fs dir dentry.onEntries mode) := by
  rw [tux3Mkdir, Namei.tux3Mkdir, h.inode]
  exact Agrees.ite (fun _ => ⟨v, rfl, h⟩) fun _ => h.mknod hinv hbits hdir hneg hnew _

theorem Refines.link (h : Refines bits v fs) (hbits : bits ≤ 16)
    (hneg : Negative bits v dir dentry) :
    Agrees bits (tux3Link bits v inode dir dentry)
      (Namei.tux3Link env.onEntries fs inode dir dentry.onEntries) := by
  rw [tux3Link, Namei.tux3Link, h.inode]
  refine Agrees.ite (fun _ => ⟨v, rfl, h⟩) fun _ => ?_
  obtain ⟨v', hcreate, hrefines, -⟩ := (h.setNlink inode fun n => u32 (n + 1)).createDirent hbits
    hneg.2.1 (h.negative hneg).2.2 hneg.2.2.2 inode
  rw [inodeIncLinkCount, hcreate]
  exact ⟨v', rfl, hrefines⟩

theorem Refines.symlink (h : Refines bits v fs) (hinv : Inv root fs) (hbits : bits ≤ 16)
    (hdir : fs.used dir = true) (hneg : Negative bits v dir dentry)
    (hnew : fs.used env.inum = false) :
    Agrees bits (tux3Symlink bits env v dir dentry)
      (Namei.tux3Symlink env.onEntries fs dir dentry.onEntries) := by
  unfold tux3Symlink Namei.tux3Symlink
  refine Agrees.ite (fun _ => ⟨v, rfl, h⟩) fun _ => ?_
  have hcreated := h.createInode hinv hnew dir (Namei.sIflnk ||| Namei.sIrwxugo)
  refine Agrees.ite (fun _ => ⟨_, rfl, hcreated.setNlink env.inum _⟩) fun _ => ?_
  have hne : dir ≠ env.inum := by
    rintro rfl
    rw [hnew] at hdir
    cases hdir
  have hbelow : Dir.BelowLimit bits ((tuxCreateInode env v dir
      (Namei.sIflnk ||| Namei.sIrwxugo)).dir dir) dentry.name.length := by
    simpa [tuxCreateInode, hne] using hneg.2.2.2
  obtain ⟨v', hcreate, hrefines, -⟩ := hcreated.createDirent hbits hneg.2.1
    (h.negative hneg).2.2 hbelow env.inum
  rw [hcreate]
  exact ⟨v', rfl, hrefines⟩

theorem Refines.unlink (h : Refines bits v fs) (hinv : Inv root fs)
    (hpos : Positive bits v dir dentry inode) :
    Agrees bits (tux3Unlink bits v inode dir dentry)
      (Namei.tux3Unlink env.onEntries fs inode dir dentry.onEntries) := by
  obtain ⟨v', e, hdel, hplain, hrefines⟩ := h.delDirent env hinv hpos
  rw [tux3Unlink, Namei.tux3Unlink, hdel, hplain]
  exact ⟨_, rfl, hrefines.setNlink inode _⟩

theorem Refines.rmdir (h : Refines bits v fs) (hinv : Inv root fs)
    (hpos : Positive bits v dir dentry inode) :
    Agrees bits (tux3Rmdir bits v inode dir dentry)
      (Namei.tux3Rmdir env.onEntries fs inode dir dentry.onEntries) := by
  rw [tux3Rmdir, Namei.tux3Rmdir, h.dirIsEmpty hinv]
  refine Agrees.ite (fun _ => ⟨v, rfl, h⟩) fun hz => ?_
  obtain ⟨v', e, hdel, hplain, hrefines⟩ := h.delDirent env hinv hpos
  have hno : ∀ a ∈ (Namei.tuxDeleteDirent fs e).entries, a.dir ≠ inode := fun a ha =>
    (Namei.dirIsEmpty_iff hinv).mp (not_not.mp hz) a (List.mem_of_mem_erase ha)
  rw [hdel, hplain]
  exact ⟨_, rfl, ((hrefines.clearSize hno).setNlink inode _).setNlink dir _⟩

end

/-! ## Rename -/

section
variable {bits root oldInode oldDir newInode newDir : ℕ} {v : Volume} {fs : Namei.Fs} {env : Env}
  {oldDentry newDentry : Dentry} {name : List UInt8} {place : ℕ × ℕ} {e : Namei.Dirent}

theorem nodup_replace (hinv : Inv root fs) (he : e ∈ fs.entries) {e' : Namei.Dirent}
    (hd : e'.dir = e.dir) (hn : e'.name = e.name) : (fs.entries.replace e e').Nodup := by
  have hnodup := inv_nodup hinv
  rw [(Namei.replace_perm he).nodup_iff, List.nodup_cons]
  refine ⟨fun hmem => ?_, hnodup.erase e⟩
  have heq : e' = e := List.inj_on_of_nodup_map hinv.keys (List.mem_of_mem_erase hmem) he
    (Prod.ext hd hn)
  rw [heq] at hmem
  exact hnodup.not_mem_erase hmem

theorem nodup_add (hinv : Inv root fs) (hnew : ∀ a ∈ fs.entries, ¬ (a.dir = e.dir ∧ a.name = e.name)) :
    (fs.entries ++ [e]).Nodup := by
  rw [(List.perm_append_singleton e _).nodup_iff, List.nodup_cons]
  exact ⟨fun hmem => hnew e hmem ⟨rfl, rfl⟩, inv_nodup hinv⟩

theorem Refines.renameFinish (env : Env) (h : Refines bits v fs) (hnodup : fs.entries.Nodup)
    (he : e ∈ fs.entries) (hd : e.dir = oldDir) (hn : e.name = text name)
    (hfind : tuxFindDirent bits v oldDir name = .ok place) (newSubdir : Bool) :
    Agrees bits (renameFinish v oldInode oldDir place newSubdir)
      (Namei.renameFinish env.onEntries fs oldInode oldDir e newSubdir) := by
  obtain ⟨v', hdelete, hrefines⟩ := h.deleteDirent hnodup he hd hn hfind
  rw [NameiBlocks.renameFinish, hdelete]
  exact ⟨_, rfl, Refines.ite (hrefines.setNlink oldDir _) hrefines⟩

/-- A rename over another name: the old entry stays in its place until it is deleted. -/
theorem Refines.rename_over (h : Refines bits v fs) (hinv : Inv root fs)
    (hold : Positive bits v oldDir oldDentry oldInode)
    (hnew : Positive bits v newDir newDentry newInode) (hne : newInode ≠ oldInode) :
    Agrees bits (tux3Rename bits v oldInode oldDir oldDentry newDir newDentry)
      (Namei.tux3Rename env.onEntries fs oldInode oldDir oldDentry.onEntries newDir
        newDentry.onEntries) := by
  obtain ⟨o, ho, hod, hon, hoi, hofind⟩ := Namei.rename_find hinv (h.positive hinv hold)
  obtain ⟨n, hn, hnd, hnn, hni, hnfind⟩ := Namei.rename_find hinv (h.positive hinv hnew)
  obtain ⟨oldEntry, hoat, hoinum⟩ := hold.2
  obtain ⟨newEntry, hnat, -⟩ := hnew.2
  have hno : o ≠ n := by
    rintro rfl
    exact hne (hni.symm.trans hoi)
  have hkey : ¬ (oldDir = newDir ∧ oldDentry.name = newDentry.name) := by
    rintro ⟨rfl, heq⟩
    refine hno (List.inj_on_of_nodup_map hinv.keys ho hn (Prod.ext (hod.trans hnd.symm) ?_))
    dsimp only
    rw [hon, hnn, Dentry.onEntries, Dentry.onEntries, heq]
  obtain ⟨hupdate, hstay⟩ := h.updateDirent (inv_nodup hinv) hn hnd hnn hnat oldInode
  have hempty : (if Namei.isDir (fs.inode oldInode).mode then tuxDirIsEmpty bits v newInode
      else some 0) = some (if Namei.isDir (fs.inode oldInode).mode then
        Namei.tuxDirIsEmpty fs newInode else 0) := by
    rw [h.dirIsEmpty hinv]
    split <;> rfl
  have hinode : newDentry.onEntries.inode = some newInode := hnew.1
  simp only [tux3Rename, Namei.tux3Rename, hoat, hoinum, hofind, hnew.1, hinode, renameOver, h.inode,
    hempty, hnat, hnfind, ne_eq, not_true, if_false]
  generalize (if Namei.isDir (fs.inode oldInode).mode = true then Namei.tuxDirIsEmpty fs newInode
    else 0) = err
  by_cases hz : err = 0
  · subst hz
    have hmem : o ∈ fs.entries.replace n { n with
        inum := oldInode, type := Namei.tuxTypeByMode (fs.inode oldInode).mode } :=
      (Namei.replace_perm hn).mem_iff.mpr
        (List.mem_cons_of_mem _ ((List.mem_erase_of_ne hno).mpr ho))
    have hdone := (Refines.ite (c := Namei.isDir (fs.inode oldInode).mode = true)
      (hupdate.setNlink newInode fun n => u32 (n + (2 ^ 32 - 1))) hupdate).setNlink newInode
      fun n => u32 (n + (2 ^ 32 - 1))
    have hat := hstay oldDir oldDentry.name oldEntry hkey hoat
    simp only [not_true, if_false, reduceCtorEq, false_and, decide_false]
    refine hdone.renameFinish env ?_ ?_ hod hon ?_ false
    · split <;> exact nodup_replace hinv hn rfl rfl
    · split <;> exact hmem
    · split <;> exact hat
  · simp only [hz, not_false_eq_true, if_true]
    exact ⟨v, rfl, h⟩

/-- A rename to a new name, which may take the slack of the record of the old one. -/
theorem Refines.rename_new (h : Refines bits v fs) (hinv : Inv root fs) (hbits : bits ≤ 16)
    (hold : Positive bits v oldDir oldDentry oldInode) (hneg : Negative bits v newDir newDentry) :
    Agrees bits (tux3Rename bits v oldInode oldDir oldDentry newDir newDentry)
      (Namei.tux3Rename env.onEntries fs oldInode oldDir oldDentry.onEntries newDir
        newDentry.onEntries) := by
  obtain ⟨o, ho, hod, hon, hoi, hofind⟩ := Namei.rename_find hinv (h.positive hinv hold)
  obtain ⟨oldEntry, hoat, hoinum⟩ := hold.2
  have hfree := (h.negative hneg).2.2
  have hkey : ¬ (oldDir = newDir ∧ oldDentry.name = newDentry.name) := by
    rintro ⟨rfl, heq⟩
    refine hfree o ho ⟨hod, ?_⟩
    rw [hon, Dentry.onEntries, Dentry.onEntries, heq]
  obtain ⟨v', hcreate, hadd, hstay⟩ := h.createDirent hbits hneg.2.1 hfree hneg.2.2.2 oldInode
  have hinode : newDentry.onEntries.inode = none := hneg.1
  simp only [tux3Rename, Namei.tux3Rename, hoat, hoinum, hofind, hneg.1, hinode, renameNew, h.inode,
    hcreate, ne_eq, not_true, if_false]
  have hsubdir : decide (True ∧ Namei.isDir (fs.inode oldInode).mode = true ∧ ¬ newDir = oldDir) =
      (Namei.isDir (fs.inode oldInode).mode && newDir != oldDir) := by
    rw [Bool.eq_iff_iff]
    simp
  rw [hsubdir]
  generalize (Namei.isDir (fs.inode oldInode).mode && newDir != oldDir) = newSubdir
  by_cases hfull : (newSubdir && decide (Namei.tuxLinkMax ≤ (fs.inode newDir).nlink)) = true
  · rw [if_pos hfull, if_pos hfull]
    exact ⟨v, rfl, h⟩
  · rw [if_neg hfull, if_neg hfull]
    have hdone := Refines.ite (c := newSubdir = true)
      (hadd.setNlink newDir fun n => u32 (n + 1)) hadd
    refine hdone.renameFinish env ?_ ?_ hod hon ?_ newSubdir
    · split <;> exact nodup_add hinv hfree
    · split <;> exact List.mem_append_left _ ho
    · have hat := hstay oldDir oldDentry.name oldEntry hkey hoat
      split <;> exact hat

/-! ## Steps -/

variable {op : Op}

/-- A permitted call on blocks does what it does on entries. -/
theorem Refines.step (h : Refines bits v fs) (hinv : Inv root fs) (hbits : bits ≤ 16)
    (hop : Permitted bits root v env op) :
    Agrees bits (step bits env v op) (Namei.step env.onEntries fs op.onEntries) := by
  cases op with
  | create dir dentry mode =>
      exact h.mknod hinv hbits (h.used ▸ hop.1.1) hop.2.1 (h.used ▸ hop.2.2.2) mode
  | mknod dir dentry mode =>
      exact h.mknod hinv hbits (h.used ▸ hop.1.1) hop.2.1 (h.used ▸ hop.2.2.2) mode
  | mkdir dir dentry mode =>
      exact h.mkdir hinv hbits (h.used ▸ hop.1.1) hop.2.1 (h.used ▸ hop.2.2.2) mode
  | link inode dir dentry => exact h.link hbits hop.2.1
  | symlink dir dentry =>
      exact h.symlink hinv hbits (h.used ▸ hop.1.1) hop.2.1 (h.used ▸ hop.2.2)
  | unlink inode dir dentry => exact h.unlink hinv hop.1
  | rmdir inode dir dentry => exact h.rmdir hinv hop.1
  | rename oldInode oldDir oldDentry newDir newDentry =>
      obtain ⟨hold, -, hneg | ⟨newInode, hnew, hne, -⟩⟩ := hop
      · exact h.rename_new hinv hbits hold hneg
      · exact h.rename_over hinv hold hnew hne
  | evict inode =>
      refine ⟨_, rfl, h.inode, ?_, h.lists⟩
      rw [h.used]
      rfl

end

end Tux3.NameiBlocks
