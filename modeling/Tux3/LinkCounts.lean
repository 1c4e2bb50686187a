import Tux3.Namei
import Mathlib.Data.List.Nodup

/-!
# Link counts

What each operation does to the entries of the volume, and from it that the link counts match
the namespace as long as no rename replaces a directory.
-/
namespace Tux3.Namei

/-! ## Counting entries -/

section
variable {es es' : List Dirent} {inode inode' : ℕ → Inode} {e : Dirent} {i d : ℕ}

theorem names_cons : names (e :: es) i = names es i + if e.inum = i then 1 else 0 := by
  simp only [names, List.countP_cons, decide_eq_true_eq]

theorem names_perm (h : es.Perm es') : names es i = names es' i := h.countP_eq _

theorem names_pos : 0 < names es i ↔ ∃ e ∈ es, e.inum = i := by
  simp only [names, List.countP_pos_iff, decide_eq_true_eq]

theorem subdirs_cons : subdirs (e :: es) inode d =
    subdirs es inode d + if e.dir = d ∧ isDir (inode e.inum).mode = true then 1 else 0 := by
  simp only [subdirs, List.countP_cons, decide_eq_true_eq]

theorem subdirs_perm (h : es.Perm es') : subdirs es inode d = subdirs es' inode d := h.countP_eq _

theorem subdirs_congr (h : ∀ e ∈ es, isDir (inode' e.inum).mode = isDir (inode e.inum).mode) :
    subdirs es inode' d = subdirs es inode d := by
  refine List.countP_congr fun e he => ?_
  rw [h e he]

theorem subdirs_eq_zero (h : ∀ e ∈ es, e.dir ≠ d) : subdirs es inode d = 0 := by
  refine List.countP_eq_zero.mpr fun e he => ?_
  rw [decide_eq_true_eq]
  exact fun hd => h e he hd.1

theorem replace_perm {b : Dirent} (h : e ∈ es) : (es.replace e b).Perm (b :: es.erase e) := by
  induction es with
  | nil => cases h
  | cons a es ih =>
      by_cases ha : a = e
      · subst ha
        simp only [List.replace_cons_self, List.erase_cons_head, List.Perm.refl]
      · have hmem : e ∈ es := by
          cases h with
          | head => exact absurd rfl ha
          | tail _ h => exact h
        have hbeq : (e == a) = false := beq_eq_false_iff_ne.mpr fun heq => ha heq.symm
        rw [List.replace_cons, hbeq, List.erase_cons_tail (by rw [beq_iff_eq]; exact ha)]
        exact ((ih hmem).cons a).trans (List.Perm.swap b a _)

end

/-! ## The invariant -/

structure Inv (root : ℕ) (fs : Fs) : Prop where
  keys : (fs.entries.map fun e => (e.dir, e.name)).Nodup
  inums : ∀ e ∈ fs.entries, fs.used e.inum = true
  dirs : ∀ e ∈ fs.entries, Present root fs e.dir
  valid : ∀ e ∈ fs.entries, ValidName e.name
  top : fs.used root = true ∧ isDir (fs.inode root).mode = true ∧ names fs.entries root = 0
  single : ∀ i, isDir (fs.inode i).mode = true → names fs.entries i ≤ 1
  links : LinksMatch root fs
  bound : ∀ i, fs.used i = true → (fs.inode i).nlink ≤ tuxLinkMax

theorem u32_inc {n : ℕ} (h : n < tuxLinkMax) : u32 (n + 1) = n + 1 :=
  u32_of_lt (by simp only [tuxLinkMax] at h; omega)

theorem u32_dec {n : ℕ} (h : n ≤ tuxLinkMax) (hpos : 0 < n) : u32 (n + (2 ^ 32 - 1)) = n - 1 := by
  simp only [tuxLinkMax] at h
  unfold u32
  omega

section
variable {root : ℕ} {fs : Fs} {env : Env} {dir inode : ℕ} {dentry : Dentry}

theorem present_iff {d : ℕ} : Present root fs d ↔
    fs.used d = true ∧ isDir (fs.inode d).mode = true ∧ (d = root ∨ 0 < names fs.entries d) := by
  rw [Present, names_pos]

theorem find_eq (h : Inv root fs) {e : Dirent} (he : e ∈ fs.entries) :
    tuxFindDirent fs e.dir e.name = some e := by
  have hmem := List.inj_on_of_nodup_map h.keys
  cases hf : tuxFindDirent fs e.dir e.name with
  | none =>
      have hno := List.find?_eq_none.mp hf e he
      simp only [and_self, decide_true, not_true] at hno
  | some e' =>
      have h1 := List.mem_of_find?_eq_some hf
      have h2 := List.find?_some hf
      rw [decide_eq_true_eq] at h2
      exact congrArg some (hmem h1 he (Prod.ext h2.1 h2.2))

/-- A directory without entries holds only what `tux_dir_is_empty` passes over. -/
theorem dirIsEmpty_iff (h : Inv root fs) :
    tuxDirIsEmpty fs dir = 0 ↔ ∀ e ∈ fs.entries, e.dir ≠ dir := by
  have hdot : ∀ e ∈ fs.entries, isDot dir e = false := by
    intro e he
    obtain ⟨h1, h2, h3⟩ := h.valid e he
    by_contra hnot
    rw [Bool.not_eq_false, isDot] at hnot
    match hname : e.name with
    | [] => exact h1 hname
    | [a] =>
        simp only [hname, List.head?_cons, Bool.and_eq_true, beq_iff_eq, Option.some.injEq] at hnot
        exact h2 (by rw [hname, hnot.1.1])
    | [a, b] =>
        simp only [hname, List.head?_cons, Bool.and_eq_true, beq_iff_eq, Option.some.injEq,
          List.length_cons, List.length_nil, Nat.reduceAdd, Nat.lt_irrefl, if_false,
          List.getElem?_cons_succ, List.getElem?_cons_zero] at hnot
        exact h3 (by rw [hname, hnot.1.1, hnot.2])
    | a :: b :: c :: l =>
        simp only [hname, List.length_cons, Bool.and_eq_true, decide_eq_true_eq] at hnot
        omega
  rw [tuxDirIsEmpty]
  constructor
  · intro hz e he hd
    split at hz
    · rename_i hall
      have := List.all_eq_true.mp hall e (List.mem_filter.mpr ⟨he, by rw [hd, decide_eq_true_eq]⟩)
      rw [hdot e he] at this
      cases this
    · simp only [enotempty] at hz
      omega
  · intro hno
    rw [if_pos]
    rw [List.all_eq_true]
    intro e he
    obtain ⟨he, hd⟩ := List.mem_filter.mp he
    exact absurd (decide_eq_true_eq.mp hd) (hno e he)

theorem Inv.unused (h : Inv root fs) {i : ℕ} (hi : fs.used i ≠ true) :
    names fs.entries i = 0 ∧ ∀ e ∈ fs.entries, e.dir ≠ i := by
  constructor
  · by_contra hne
    obtain ⟨e, he, heq⟩ := names_pos.mp (Nat.pos_of_ne_zero hne)
    exact hi (heq ▸ h.inums e he)
  · intro e he heq
    exact hi (heq ▸ (h.dirs e he).1)

/-- One entry more, for a new inode or another name of a file. -/
theorem Inv.add (h : Inv root fs) {fs' : Fs} {e : Dirent} (hentries : fs'.entries = fs.entries ++ [e])
    (hused : ∀ i, fs'.used i = true ↔ fs.used i = true ∨ i = e.inum)
    (hmode : ∀ i, fs.used i = true → (fs'.inode i).mode = (fs.inode i).mode)
    (hkey : ∀ a ∈ fs.entries, ¬ (a.dir = e.dir ∧ a.name = e.name)) (hvalid : ValidName e.name)
    (hdir : Present root fs e.dir)
    (hinum : fs.used e.inum = true → isDir (fs.inode e.inum).mode = false)
    (hlink : ∀ i, fs'.used i = true → (fs'.inode i).nlink =
      (if fs.used i = true then (fs.inode i).nlink
        else if isDir (fs'.inode i).mode = true then 2 else 0) +
      (if e.inum = i ∧ isDir (fs'.inode i).mode = false then 1 else 0) +
      if e.dir = i ∧ isDir (fs'.inode e.inum).mode = true then 1 else 0)
    (hbound : ∀ i, fs'.used i = true → (fs'.inode i).nlink ≤ tuxLinkMax) : Inv root fs' := by
  have hperm : fs'.entries.Perm (e :: fs.entries) := hentries ▸ List.perm_append_singleton e _
  have hnames : ∀ i, names fs'.entries i = names fs.entries i + if e.inum = i then 1 else 0 :=
    fun i => (names_perm hperm).trans names_cons
  have hsub : ∀ d, subdirs fs'.entries fs'.inode d = subdirs fs.entries fs.inode d +
      if e.dir = d ∧ isDir (fs'.inode e.inum).mode = true then 1 else 0 := by
    intro d
    rw [subdirs_perm hperm, subdirs_cons, subdirs_congr]
    exact fun a ha => by rw [hmode _ (h.inums a ha)]
  have hmem : ∀ a, a ∈ fs'.entries ↔ a = e ∨ a ∈ fs.entries := fun a =>
    hperm.mem_iff.trans List.mem_cons
  have hpres : ∀ d, Present root fs d → Present root fs' d := by
    intro d hd
    obtain ⟨h1, h2, h3⟩ := present_iff.mp hd
    refine present_iff.mpr ⟨(hused d).mpr (Or.inl h1), by rw [hmode d h1, h2], h3.imp_right ?_⟩
    intro hpos
    rw [hnames d]
    omega
  refine ⟨?_, fun a ha => ?_, fun a ha => ?_, fun a ha => ?_, ?_, fun i hi => ?_, fun i hi => ?_,
    hbound⟩
  · refine (hperm.map _).nodup_iff.mpr ?_
    rw [List.map_cons, List.nodup_cons]
    refine ⟨fun hin => ?_, h.keys⟩
    obtain ⟨a, ha, heq⟩ := List.mem_map.mp hin
    exact hkey a ha ⟨congrArg Prod.fst heq, congrArg Prod.snd heq⟩
  · rw [hused]
    rcases (hmem a).mp ha with rfl | ha
    · exact Or.inr rfl
    · exact Or.inl (h.inums a ha)
  · rcases (hmem a).mp ha with rfl | ha
    · exact hpres _ hdir
    · exact hpres _ (h.dirs a ha)
  · rcases (hmem a).mp ha with rfl | ha
    · exact hvalid
    · exact h.valid a ha
  · obtain ⟨h1, h2, h3⟩ := h.top
    refine ⟨(hused root).mpr (Or.inl h1), by rw [hmode root h1, h2], ?_⟩
    rw [hnames, h3, if_neg]
    rintro rfl
    rw [hinum h1] at h2
    cases h2
  · rw [hnames]
    by_cases hu : fs.used i = true
    · rw [hmode i hu] at hi
      have := h.single i hi
      rw [if_neg]
      · exact this
      · rintro rfl
        rw [hinum hu] at hi
        cases hi
    · rw [(h.unused hu).1]
      split <;> omega
  · rw [hlink i hi, hnames i, hsub i]
    by_cases hu : fs.used i = true
    · obtain ⟨h1, h2⟩ := h.links i hu
      rw [if_pos hu]
      constructor
      · intro hd
        have hdd : e.dir ≠ i := by
          rintro rfl
          rw [hmode _ hu, hdir.2.1] at hd
          cases hd
        rw [h1 (hmode i hu ▸ hd)]
        simp only [hd, hdd, and_true, false_and, if_false, Nat.add_zero]
      · intro hp
        obtain ⟨-, hd, hpos⟩ := present_iff.mp hp
        have hne : e.inum ≠ i := by
          rintro rfl
          rw [hmode _ hu, hinum hu] at hd
          cases hd
        rw [hnames, if_neg hne] at hpos
        rw [h2 (present_iff.mpr ⟨hu, hmode i hu ▸ hd, hpos⟩)]
        simp only [hne, false_and, if_false]
        omega
    · have hi' := ((hused i).mp hi).resolve_left hu
      subst hi'
      obtain ⟨h1, h2⟩ := h.unused hu
      have hdd : e.dir ≠ e.inum := fun heq => hu (heq ▸ hdir.1)
      rw [if_neg hu, h1, subdirs_eq_zero h2]
      simp only [hdd, false_and, if_false, if_true, true_and, Nat.add_zero, Nat.zero_add]
      constructor
      · intro hd
        simp only [hd, Bool.false_eq_true, if_false, if_true]
      · intro hp
        simp only [hp.2.1, if_true, Bool.true_eq_false, if_false]

/-- One entry less: a name of a file, or the entry of an empty directory. -/
theorem Inv.remove (h : Inv root fs) {fs' : Fs} {e : Dirent} (he : e ∈ fs.entries)
    (hentries : fs'.entries = fs.entries.erase e) (hused : fs'.used = fs.used)
    (hmode : ∀ i, (fs'.inode i).mode = (fs.inode i).mode)
    (hempty : isDir (fs.inode e.inum).mode = true → ∀ a ∈ fs.entries, a.dir ≠ e.inum)
    (hlink : ∀ i, (fs'.inode i).nlink =
      if e.inum = i then (if isDir (fs.inode i).mode = true then 0 else (fs.inode i).nlink - 1)
      else if e.dir = i ∧ isDir (fs.inode e.inum).mode = true then (fs.inode i).nlink - 1
      else (fs.inode i).nlink) : Inv root fs' := by
  have hperm : fs.entries.Perm (e :: fs'.entries) := hentries ▸ List.perm_cons_erase he
  have hnames : ∀ i, names fs.entries i = names fs'.entries i + if e.inum = i then 1 else 0 :=
    fun i => (names_perm hperm).trans names_cons
  have hsub : ∀ d, subdirs fs.entries fs.inode d = subdirs fs'.entries fs'.inode d +
      if e.dir = d ∧ isDir (fs.inode e.inum).mode = true then 1 else 0 := by
    intro d
    rw [subdirs_perm hperm, subdirs_cons]
    congr 1
    exact (subdirs_congr fun a _ => by rw [hmode]).symm
  have hmem : ∀ a ∈ fs'.entries, a ∈ fs.entries := fun a ha =>
    hperm.mem_iff.mpr (List.mem_cons_of_mem e ha)
  have hpres : ∀ d, d ≠ e.inum ∨ isDir (fs.inode e.inum).mode = false →
      (Present root fs' d ↔ Present root fs d) := by
    intro d hd
    rw [present_iff, present_iff, hused, hmode, hnames]
    by_cases hdd : e.inum = d
    · subst hdd
      have hfile := hd.resolve_left (fun h => h rfl)
      simp only [hfile, Bool.false_eq_true, false_and, and_false]
    · rw [if_neg hdd, Nat.add_zero]
  refine ⟨?_, fun a ha => hused ▸ h.inums a (hmem a ha), fun a ha => ?_,
    fun a ha => h.valid a (hmem a ha), ?_, fun i hi => ?_, fun i hi => ?_, fun i hi => ?_⟩
  · have hnodup := (hperm.map fun e => (e.dir, e.name)).nodup_iff.mp h.keys
    rw [List.map_cons, List.nodup_cons] at hnodup
    exact hnodup.2
  · refine (hpres _ ?_).mpr (h.dirs a (hmem a ha))
    by_cases hd : isDir (fs.inode e.inum).mode = true
    · exact Or.inl (hempty hd a (hmem a ha))
    · exact Or.inr (Bool.not_eq_true _ ▸ hd)
  · obtain ⟨h1, h2, h3⟩ := h.top
    have := hnames root
    exact ⟨hused ▸ h1, by rw [hmode, h2], by omega⟩
  · have h1 := h.single i (hmode i ▸ hi)
    have := hnames i
    omega
  · rw [hused] at hi
    obtain ⟨h1, h2⟩ := h.links i hi
    rw [hlink i, hmode i]
    have hn := hnames i
    have hs := hsub i
    constructor
    · intro hd
      have hdd : e.dir ≠ i := by
        rintro rfl
        rw [(h.dirs e he).2.1] at hd
        cases hd
      rw [h1 hd]
      by_cases hei : e.inum = i
      · simp only [hei, if_true, hd, Bool.false_eq_true, if_false] at hn ⊢
        omega
      · simp only [hei, hdd, if_false, false_and] at hn ⊢
        omega
    · intro hp
      have hei : ¬ (e.inum = i) := by
        rintro rfl
        obtain ⟨-, hd, hpos⟩ := present_iff.mp hp
        rw [hmode] at hd
        have hone := h.single _ hd
        rw [if_pos rfl] at hn
        rcases hpos with heq | hpos
        · have := h.top.2.2
          rw [← heq] at this
          omega
        · omega
      rw [if_neg hei, h2 ((hpres i (Or.inl (Ne.symm hei))).mp hp)]
      by_cases hdd : e.dir = i ∧ isDir (fs.inode e.inum).mode = true
      · rw [if_pos hdd] at hs ⊢
        omega
      · rw [if_neg hdd] at hs ⊢
        omega
  · have hb := h.bound i (hused ▸ hi)
    rw [hlink i]
    split
    · split <;> omega
    · split <;> omega

/-- An entry moves to another place, and may take the place of another file's entry. -/
theorem Inv.move (h : Inv root fs) {fs' : Fs} {e e' : Dirent} {gone rest : List Dirent}
    (hold : fs.entries.Perm (e :: gone ++ rest)) (hnew : fs'.entries.Perm (e' :: rest))
    (hinum : e'.inum = e.inum) (hused : fs'.used = fs.used)
    (hmode : ∀ i, (fs'.inode i).mode = (fs.inode i).mode) (hdir : Present root fs e'.dir)
    (hvalid : ValidName e'.name) (hkey : ∀ a ∈ rest, ¬ (a.dir = e'.dir ∧ a.name = e'.name))
    (hgone : ∀ a ∈ gone, isDir (fs.inode a.inum).mode = false)
    (hlink : ∀ i, fs.used i = true → (fs'.inode i).nlink +
      (if e.dir = i ∧ isDir (fs.inode e.inum).mode = true then 1 else 0) + names gone i =
      (fs.inode i).nlink + if e'.dir = i ∧ isDir (fs.inode e.inum).mode = true then 1 else 0)
    (hbound : ∀ i, fs.used i = true → (fs'.inode i).nlink ≤ tuxLinkMax) : Inv root fs' := by
  have hnames : ∀ i, names fs.entries i = names fs'.entries i + names gone i := by
    intro i
    rw [names_perm hold, names_perm hnew, List.cons_append, names_cons, names_cons, hinum, names,
      List.countP_append]
    simp only [names]
    omega
  have hfile : ∀ i, isDir (fs.inode i).mode = true → names gone i = 0 := by
    intro i hi
    by_contra hne
    obtain ⟨a, ha, heq⟩ := names_pos.mp (Nat.pos_of_ne_zero hne)
    rw [← heq, hgone a ha] at hi
    cases hi
  have hsub : ∀ d, subdirs fs'.entries fs'.inode d +
      (if e.dir = d ∧ isDir (fs.inode e.inum).mode = true then 1 else 0) =
      subdirs fs.entries fs.inode d +
      if e'.dir = d ∧ isDir (fs.inode e.inum).mode = true then 1 else 0 := by
    intro d
    have hzero : subdirs gone fs.inode d = 0 := by
      refine List.countP_eq_zero.mpr fun a ha => ?_
      rw [decide_eq_true_eq, hgone a ha]
      exact fun hc => nomatch hc.2
    have happ : subdirs (gone ++ rest) fs.inode d = subdirs rest fs.inode d := by
      rw [subdirs, List.countP_append]
      simp only [subdirs] at hzero ⊢
      omega
    have hsame : subdirs rest fs'.inode d = subdirs rest fs.inode d :=
      subdirs_congr fun a _ => by rw [hmode]
    rw [subdirs_perm hold, subdirs_perm hnew, List.cons_append, subdirs_cons, subdirs_cons, happ,
      hinum, hmode, hsame]
    omega
  have hpres : ∀ d, Present root fs' d ↔ Present root fs d := by
    intro d
    rw [present_iff, present_iff, hused, hmode, hnames]
    by_cases hd : isDir (fs.inode d).mode = true
    · rw [hfile d hd, Nat.add_zero]
    · simp only [hd, Bool.false_eq_true, false_and, and_false]
  have hmem : ∀ a ∈ fs'.entries, a = e' ∨ a ∈ rest ∧ a ∈ fs.entries := by
    intro a ha
    refine (List.mem_cons.mp (hnew.mem_iff.mp ha)).imp_right fun ha => ⟨ha, hold.mem_iff.mpr ?_⟩
    exact List.mem_append_right _ ha
  have he : e ∈ fs.entries := hold.mem_iff.mpr List.mem_cons_self
  refine ⟨?_, fun a ha => ?_, fun a ha => (hpres _).mpr ?_, fun a ha => ?_, ?_, fun i hi => ?_,
    fun i hi => ?_, fun i hi => hbound i (hused ▸ hi)⟩
  · refine (hnew.map _).nodup_iff.mpr ?_
    rw [List.map_cons, List.nodup_cons]
    constructor
    · intro hin
      obtain ⟨a, ha, heq⟩ := List.mem_map.mp hin
      exact hkey a ha ⟨congrArg Prod.fst heq, congrArg Prod.snd heq⟩
    · have hnodup := (hold.map fun e => (e.dir, e.name)).nodup_iff.mp h.keys
      rw [List.map_append] at hnodup
      exact (List.nodup_append.mp hnodup).2.1
  · rw [hused]
    rcases hmem a ha with rfl | ⟨-, ha⟩
    · rw [hinum]
      exact h.inums e he
    · exact h.inums a ha
  · rcases hmem a ha with rfl | ⟨-, ha⟩
    · exact hdir
    · exact h.dirs a ha
  · rcases hmem a ha with rfl | ⟨-, ha⟩
    · exact hvalid
    · exact h.valid a ha
  · obtain ⟨h1, h2, h3⟩ := h.top
    have := hnames root
    exact ⟨hused ▸ h1, by rw [hmode, h2], by omega⟩
  · have := h.single i (hmode i ▸ hi)
    have := hnames i
    omega
  · rw [hused] at hi
    obtain ⟨h1, h2⟩ := h.links i hi
    have hl := hlink i hi
    have hn := hnames i
    have hs := hsub i
    rw [hmode i]
    constructor
    · intro hd
      have hne : ∀ a : Dirent, Present root fs a.dir →
          ¬ (a.dir = i ∧ isDir (fs.inode e.inum).mode = true) := by
        rintro a ha ⟨rfl, -⟩
        rw [ha.2.1] at hd
        cases hd
      rw [if_neg (hne e (h.dirs e he)), if_neg (hne e' hdir)] at hl
      have := h1 hd
      omega
    · intro hp
      have hp' := (hpres i).mp hp
      have := h2 hp'
      have := hfile i hp'.2.1
      omega

end

/-! ## The operations -/

section
variable {root : ℕ} {fs : Fs} {env : Env} {dir inode mode : ℕ} {dentry : Dentry}

theorem isDir_sgid (mode : ℕ) : isDir (mode ||| sIsgid) = isDir mode := by
  have hzero : sIsgid &&& sIfmt = 0 := by decide
  rw [isDir, isDir, Nat.and_or_distrib_right, hzero, Nat.or_zero]

theorem isDir_newInode (d : Inode) (mode : ℕ) : isDir (tuxNewInode d mode).mode = isDir mode := by
  rw [tuxNewInode]
  dsimp only
  split
  · exact isDir_sgid mode
  · rfl

theorem newInode_nlink (d : Inode) (mode : ℕ) :
    (tuxNewInode d mode).nlink = if isDir (tuxNewInode d mode).mode = true then 2 else 1 := rfl

theorem isDir_mkdir (h : mode &&& sIfmt = 0) : isDir (sIfdir ||| mode) = true := by
  rw [isDir, Nat.and_or_distrib_right, h]
  decide

theorem setNlink_mode (f : ℕ → ℕ) (i j : ℕ) :
    ((fs.setNlink i f).inode j).mode = (fs.inode j).mode := by
  simp only [Fs.setNlink, Function.update_apply]
  split
  · rename_i h
    rw [h]
  · rfl

theorem setNlink_nlink (f : ℕ → ℕ) (i j : ℕ) :
    ((fs.setNlink i f).inode j).nlink =
      if i = j then f (fs.inode i).nlink else (fs.inode j).nlink := by
  simp only [Fs.setNlink, Function.update_apply, eq_comm]
  split
  · rfl
  · rfl

/-- A new inode with its first entry. -/
theorem Inv.create (h : Inv root fs) (hdir : Present root fs dir) (hneg : Negative fs dir dentry)
    (hfresh : fs.used env.inum = false)
    (hroom : isDir mode = true → (fs.inode dir).nlink < tuxLinkMax) :
    Inv root (let fs' := tuxAddDirent (tuxCreateInode env fs dir mode) dir dentry.name env.inum
      if isDir mode then inodeIncLinkCount fs' dir else fs') := by
  have hne : dir ≠ env.inum := by
    rintro rfl
    rw [hdir.1] at hfresh
    cases hfresh
  have hinode : ∀ i, fs.used i = true → i ≠ env.inum := by
    rintro i hi rfl
    rw [hi] at hfresh
    cases hfresh
  have hold : ∀ i, i ≠ env.inum → (tuxCreateInode env fs dir mode).inode i = fs.inode i :=
    fun i hi => Function.update_of_ne hi _ _
  have hself : (tuxCreateInode env fs dir mode).inode env.inum = tuxNewInode (fs.inode dir) mode :=
    Function.update_self _ _ _
  have hused : ∀ i, (tuxCreateInode env fs dir mode).used i = true ↔
      fs.used i = true ∨ i = env.inum := by
    intro i
    simp only [tuxCreateInode, Function.update_apply]
    split
    · rename_i heq
      simp only [heq, or_true]
    · rename_i hne
      simp only [hne, or_false]
  have hb := h.bound dir hdir.1
  dsimp only
  split
  · rename_i hd
    have hroom := hroom hd
    refine @Inv.add root fs h _ _ rfl hused (fun i hi => ?_) hneg.2.2 hneg.2.1 hdir
      (fun hu => absurd rfl (hinode _ hu)) (fun i hi => ?_) (fun i hi => ?_)
    · rw [inodeIncLinkCount, setNlink_mode, tuxAddDirent, hold i (hinode i hi)]
    · simp only [inodeIncLinkCount, setNlink_mode, setNlink_nlink, tuxAddDirent]
      by_cases hi' : i = env.inum
      · subst hi'
        simp only [hself, hfresh, isDir_newInode, newInode_nlink, hd, hne, Bool.false_eq_true,
          if_true, if_false, false_and, Bool.true_eq_false, and_false]
      · simp only [hold i hi', hold dir hne, hself, isDir_newInode, hd, and_true,
          ((hused i).mp hi).resolve_right hi', Ne.symm hi', false_and, if_true, if_false,
          Nat.add_zero]
        split
        · rename_i heq
          rw [← heq, u32_inc hroom]
        · rfl
    · simp only [inodeIncLinkCount, setNlink_nlink, tuxAddDirent]
      split
      · rw [hold dir hne, u32_inc hroom]
        omega
      · by_cases hi' : i = env.inum
        · subst hi'
          rw [hself, newInode_nlink]
          simp only [tuxLinkMax]
          split <;> omega
        · rw [hold i hi']
          exact h.bound i (((hused i).mp hi).resolve_right hi')
  · rename_i hd
    refine @Inv.add root fs h _ _ rfl hused (fun i hi => ?_) hneg.2.2 hneg.2.1 hdir
      (fun hu => absurd rfl (hinode _ hu)) (fun i hi => ?_) (fun i hi => ?_)
    · rw [tuxAddDirent, hold i (hinode i hi)]
    · simp only [tuxAddDirent]
      by_cases hi' : i = env.inum
      · subst hi'
        simp only [hself, hfresh, isDir_newInode, newInode_nlink, hd, Bool.false_eq_true,
          if_true, if_false, and_false, and_self]
      · simp only [hold i hi', hself, isDir_newInode, hd, ((hused i).mp hi).resolve_right hi',
          Ne.symm hi', false_and, if_true, if_false, Nat.add_zero, Bool.false_eq_true, and_false]
    · simp only [tuxAddDirent]
      by_cases hi' : i = env.inum
      · subst hi'
        rw [hself, newInode_nlink]
        simp only [tuxLinkMax]
        split <;> omega
      · rw [hold i hi']
        exact h.bound i (((hused i).mp hi).resolve_right hi')

theorem mknod_eq (hok : (tux3Mknod env fs dir dentry mode).1 = 0) :
    (tux3Mknod env fs dir dentry mode).2 =
      let fs' := tuxAddDirent (tuxCreateInode env fs dir mode) dir dentry.name env.inum
      if isDir mode then inodeIncLinkCount fs' dir else fs' := by
  have hself : ((tuxCreateInode env fs dir mode).inode env.inum) = tuxNewInode (fs.inode dir) mode :=
    Function.update_self _ _ _
  rw [tux3Mknod] at hok ⊢
  by_cases h1 : env.createErr ≠ 0
  · rw [if_pos h1] at hok
    exact absurd hok h1
  · rw [if_neg h1] at hok ⊢
    dsimp only at hok ⊢
    by_cases h2 : env.addErr ≠ 0
    · rw [if_pos h2] at hok
      exact absurd hok h2
    · rw [if_neg h2]
      simp only [tuxAddDirent, hself, isDir_newInode]

theorem delDirent_eq (h : Inv root fs) (hok : (tuxDelDirent env fs dir dentry).1 = 0)
    (hpos : Positive fs dir dentry inode) : ∃ e ∈ fs.entries, e.dir = dir ∧ e.inum = inode ∧
      (tuxDelDirent env fs dir dentry).2 = tuxDeleteDirent fs e := by
  obtain ⟨-, e, he, hd, hn, hi⟩ := hpos
  have hfind := find_eq h he
  rw [hd, hn] at hfind
  refine ⟨e, he, hd, hi, ?_⟩
  simp only [tuxDelDirent, hfind] at hok ⊢
  split
  · rename_i hne
    rw [if_pos hne] at hok
    exact absurd hok hne
  · rfl

theorem Inv.mknod (h : Inv root fs) (hdir : Present root fs dir) (hneg : Negative fs dir dentry)
    (hfresh : fs.used env.inum = false)
    (hroom : isDir mode = true → (fs.inode dir).nlink < tuxLinkMax)
    (hok : (tux3Mknod env fs dir dentry mode).1 = 0) :
    Inv root (tux3Mknod env fs dir dentry mode).2 := by
  rw [mknod_eq hok]
  exact h.create hdir hneg hfresh hroom

theorem Inv.mkdir (h : Inv root fs) (hdir : Present root fs dir) (hneg : Negative fs dir dentry)
    (hfresh : fs.used env.inum = false) (hok : (tux3Mkdir env fs dir dentry mode).1 = 0) :
    Inv root (tux3Mkdir env fs dir dentry mode).2 := by
  rw [tux3Mkdir] at hok ⊢
  split
  · rename_i hfull
    rw [if_pos hfull] at hok
    exact h
  · rename_i hroom
    rw [if_neg hroom] at hok
    exact h.mknod hdir hneg hfresh (fun _ => Nat.lt_of_not_le hroom) hok

theorem Inv.symlink (h : Inv root fs) (hdir : Present root fs dir) (hneg : Negative fs dir dentry)
    (hfresh : fs.used env.inum = false) (hok : (tux3Symlink env fs dir dentry).1 = 0) :
    Inv root (tux3Symlink env fs dir dentry).2 := by
  have hfile : isDir (sIflnk ||| sIrwxugo) = false := by decide
  have hnew := @Inv.create root fs env dir (sIflnk ||| sIrwxugo) dentry h hdir hneg hfresh
    (fun hd => by rw [hfile] at hd; cases hd)
  rw [hfile] at hnew
  rw [tux3Symlink] at hok ⊢
  by_cases h1 : env.createErr ≠ 0
  · rw [if_pos h1] at hok
    exact absurd hok h1
  · rw [if_neg h1] at hok ⊢
    by_cases h2 : env.symlinkErr ≠ 0
    · rw [if_pos h2] at hok
      exact absurd hok h2
    · rw [if_neg h2] at hok ⊢
      by_cases h3 : env.addErr ≠ 0
      · rw [if_pos h3] at hok
        exact absurd hok h3
      · rw [if_neg h3]
        exact hnew

theorem Inv.link (h : Inv root fs) (hdir : Present root fs dir) (hneg : Negative fs dir dentry)
    (hfile : isDir (fs.inode inode).mode = false) (hname : ∃ e ∈ fs.entries, e.inum = inode)
    (hok : (tux3Link env fs inode dir dentry).1 = 0) :
    Inv root (tux3Link env fs inode dir dentry).2 := by
  obtain ⟨e, he, rfl⟩ := hname
  have hu := h.inums e he
  rw [tux3Link] at hok ⊢
  by_cases hfull : tuxLinkMax ≤ (fs.inode e.inum).nlink
  · rw [if_pos hfull]
    exact h
  · rw [if_neg hfull] at hok ⊢
    by_cases h1 : env.addErr ≠ 0
    · rw [if_pos h1] at hok
      exact absurd hok h1
    · rw [if_neg h1]
      have hinc := u32_inc (Nat.lt_of_not_le hfull)
      refine @Inv.add root fs h _ _ rfl (fun i => ?_) (fun i _ => ?_) hneg.2.2 hneg.2.1 hdir
        (fun _ => hfile) (fun i hi => ?_) (fun i hi => ?_)
      · simp only [tuxAddDirent, inodeIncLinkCount, Fs.setNlink]
        exact ⟨Or.inl, fun h => h.elim id fun heq => heq ▸ hu⟩
      · rw [tuxAddDirent, inodeIncLinkCount, setNlink_mode]
      · simp only [tuxAddDirent, inodeIncLinkCount, setNlink_mode, setNlink_nlink, hfile,
          Bool.false_eq_true, and_false, if_false, Nat.add_zero] at hi ⊢
        rw [if_pos (show fs.used i = true from hi)]
        by_cases heq : e.inum = i
        · subst heq
          rw [if_pos rfl, if_pos ⟨rfl, hfile⟩, hinc]
        · rw [if_neg heq, if_neg (fun hc => heq hc.1), Nat.add_zero]
      · simp only [tuxAddDirent, inodeIncLinkCount, setNlink_nlink]
        split
        · rw [hinc]
          omega
        · exact h.bound i hi

theorem Inv.unlink (h : Inv root fs) (hpos : Positive fs dir dentry inode)
    (hfile : isDir (fs.inode inode).mode = false)
    (hok : (tux3Unlink env fs inode dir dentry).1 = 0) :
    Inv root (tux3Unlink env fs inode dir dentry).2 := by
  have hres : tux3Unlink env fs inode dir dentry =
      if (tuxDelDirent env fs dir dentry).1 ≠ 0 then tuxDelDirent env fs dir dentry
      else (0, inodeDecLinkCount (tuxDelDirent env fs dir dentry).2 inode) := rfl
  rw [hres] at hok ⊢
  have hdel : (tuxDelDirent env fs dir dentry).1 = 0 := by
    by_contra hne
    rw [if_pos hne] at hok
    exact hne hok
  obtain ⟨e, he, hd, hi, heq⟩ := delDirent_eq h hdel hpos
  rw [if_neg (not_not.mpr hdel), heq]
  subst hi
  have hlink := (h.links e.inum (h.inums e he)).1 hfile
  have hone := names_pos.mpr ⟨e, he, rfl⟩
  refine @Inv.remove root fs h _ e he rfl rfl (fun i => ?_) (fun hdir => ?_) (fun i => ?_)
  · rw [inodeDecLinkCount, setNlink_mode, tuxDeleteDirent]
  · rw [hfile] at hdir
    cases hdir
  · rw [inodeDecLinkCount, setNlink_nlink]
    simp only [tuxDeleteDirent, hfile, Bool.false_eq_true, and_false, if_false]
    split
    · rename_i heq
      rw [← heq, hfile, u32_dec (h.bound _ (h.inums e he)) (hlink ▸ hone)]
      rfl
    · rfl

theorem Inv.rmdir (h : Inv root fs) (hpos : Positive fs dir dentry inode)
    (hisdir : isDir (fs.inode inode).mode = true)
    (hok : (tux3Rmdir env fs inode dir dentry).1 = 0) :
    Inv root (tux3Rmdir env fs inode dir dentry).2 := by
  have hres : tux3Rmdir env fs inode dir dentry =
      if tuxDirIsEmpty fs inode ≠ 0 then (tuxDirIsEmpty fs inode, fs)
      else if (tuxDelDirent env fs dir dentry).1 ≠ 0 then tuxDelDirent env fs dir dentry
      else (0, inodeDecLinkCount (clearNlink (tuxDelDirent env fs dir dentry).2 inode) dir) := rfl
  rw [hres] at hok ⊢
  have hempty : tuxDirIsEmpty fs inode = 0 := by
    by_contra hne
    rw [if_pos hne] at hok
    exact hne hok
  rw [if_neg (not_not.mpr hempty)] at hok ⊢
  have hdel : (tuxDelDirent env fs dir dentry).1 = 0 := by
    by_contra hne
    rw [if_pos hne] at hok
    exact hne hok
  obtain ⟨e, he, hd, hi, heq⟩ := delDirent_eq h hdel hpos
  rw [if_neg (not_not.mpr hdel), heq]
  subst hi
  subst hd
  have hpres := h.dirs e he
  have hlink := (h.links e.dir hpres.1).2 hpres
  have hbound := h.bound e.dir hpres.1
  have hno := (dirIsEmpty_iff h).mp hempty
  refine @Inv.remove root fs h _ e he rfl rfl (fun i => ?_) (fun _ => hno) (fun i => ?_)
  · rw [inodeDecLinkCount, setNlink_mode, clearNlink, setNlink_mode, tuxDeleteDirent]
  · have hne : ¬ (e.inum = e.dir) := fun heq => hno e he heq.symm
    simp only [inodeDecLinkCount, clearNlink, setNlink_nlink, tuxDeleteDirent, hisdir, and_true]
    by_cases hei : e.inum = i
    · subst hei
      rw [if_neg (Ne.symm hne), if_pos rfl, if_pos rfl, if_pos hisdir]
    · rw [if_neg hei, if_neg hei, if_neg hne]
      split
      · rename_i hdi
        rw [u32_dec hbound (by omega), hdi]
      · rfl

theorem Inv.evict (h : Inv root fs) (hu : fs.used inode = true) (hz : (fs.inode inode).nlink = 0) :
    Inv root { fs with used := Function.update fs.used inode false } := by
  have hgone : ∀ d, Present root fs d → d ≠ inode := by
    rintro d hd rfl
    have := (h.links d hd.1).2 hd
    omega
  have hname : ∀ e ∈ fs.entries, e.inum ≠ inode := by
    rintro e he rfl
    by_cases hd : isDir (fs.inode e.inum).mode = true
    · exact hgone _ ⟨hu, hd, Or.inr ⟨e, he, rfl⟩⟩ rfl
    · have := (h.links _ hu).1 (Bool.not_eq_true _ ▸ hd)
      have := names_pos.mpr ⟨e, he, rfl⟩
      omega
  have hkeep : ∀ i, i ≠ inode → Function.update fs.used inode false i = fs.used i :=
    fun i hi => Function.update_of_ne hi _ _
  have hsub : ∀ i, Function.update fs.used inode false i = true → fs.used i = true := by
    intro i hi
    rw [Function.update_apply] at hi
    split at hi
    · cases hi
    · exact hi
  have hroot : Present root fs root := ⟨h.top.1, h.top.2.1, Or.inl rfl⟩
  refine ⟨h.keys, fun e he => ?_, fun e he => ?_, h.valid, ?_, h.single, fun i hi => ?_,
    fun i hi => h.bound i (hsub i hi)⟩
  · exact (hkeep _ (hname e he)).trans (h.inums e he)
  · have hd := h.dirs e he
    exact ⟨(hkeep _ (hgone _ hd)).trans hd.1, hd.2⟩
  · exact ⟨(hkeep _ (hgone _ hroot)).trans h.top.1, h.top.2⟩
  · obtain ⟨h1, h2⟩ := h.links i (hsub i hi)
    exact ⟨h1, fun hp => h2 ⟨hsub i hi, hp.2⟩⟩

end

/-! ## Rename -/

section
variable {root : ℕ} {fs : Fs} {env : Env} {oldDir newDir oldInode newInode : ℕ}
  {oldDentry newDentry : Dentry}

theorem rename_find (h : Inv root fs) (hpos : Positive fs oldDir oldDentry oldInode) :
    ∃ e ∈ fs.entries, e.dir = oldDir ∧ e.name = oldDentry.name ∧ e.inum = oldInode ∧
      tuxFindDirent fs oldDir oldDentry.name = some e := by
  obtain ⟨-, e, he, hd, hn, hi⟩ := hpos
  have hfind := find_eq h he
  rw [hd, hn] at hfind
  exact ⟨e, he, hd, hn, hi, hfind⟩

/-- A rename over the name of another file. -/
theorem Inv.rename_over (h : Inv root fs) (hold : Positive fs oldDir oldDentry oldInode)
    (hnew : Positive fs newDir newDentry newInode) (hne : newInode ≠ oldInode)
    (hkind : isDir (fs.inode newInode).mode = isDir (fs.inode oldInode).mode)
    (hfile : isDir (fs.inode oldInode).mode = false)
    (hok : (tux3Rename env fs oldInode oldDir oldDentry newDir newDentry).1 = 0) :
    Inv root (tux3Rename env fs oldInode oldDir oldDentry newDir newDentry).2 := by
  obtain ⟨o, ho, hod, hon, hoi, hofind⟩ := rename_find h hold
  obtain ⟨n, hn, hnd, hnn, hni, hnfind⟩ := rename_find h hnew
  simp only [tux3Rename, hofind, hnfind, hnew.1, hfile, Bool.false_eq_true, if_false, ne_eq,
    not_true, renameFinish] at hok ⊢
  have hdel : env.delErr = 0 := by
    by_contra hc
    rw [if_pos hc] at hok
    exact hc hok
  rw [if_neg (not_not.mpr hdel)]
  subst hoi
  subst hni
  have hno : o ≠ n := fun heq => hne (by rw [heq])
  have hperm : fs.entries.Perm (n :: o :: (fs.entries.erase n).erase o) :=
    (List.perm_cons_erase hn).trans
      ((List.perm_cons_erase ((List.mem_erase_of_ne hno).mpr ho)).cons n)
  have hkeys := (hperm.map fun e => (e.dir, e.name)).nodup_iff.mp h.keys
  simp only [List.map_cons, List.nodup_cons, List.mem_cons, not_or] at hkeys
  have hreplaced : ∀ e' : Dirent, e'.dir = n.dir → e'.name = n.name →
      ((fs.entries.replace n e').erase o).Perm (e' :: (fs.entries.erase n).erase o) := by
    intro e' hd hname
    have hne' : e' ≠ o := by
      rintro rfl
      exact hkeys.1.1 (Prod.ext hd.symm hname.symm)
    have := (replace_perm (b := e') hn).erase o
    rwa [List.erase_cons_tail (by rw [beq_iff_eq]; exact hne')] at this
  have hlink := (h.links n.inum (h.inums n hn)).1 (hkind.trans hfile)
  have hone := names_pos.mpr ⟨n, hn, rfl⟩
  have hdec : u32 ((fs.inode n.inum).nlink + (2 ^ 32 - 1)) = (fs.inode n.inum).nlink - 1 :=
    u32_dec (h.bound _ (h.inums n hn)) (hlink ▸ hone)
  refine @Inv.move root fs h _ o _ [n] ((fs.entries.erase n).erase o)
    (hperm.trans (List.Perm.swap o n _)) (hreplaced _ rfl rfl) rfl rfl (fun i => ?_)
    (h.dirs n hn) (h.valid n hn) (fun a ha hc => ?_) (fun a ha => ?_) (fun i hi => ?_)
    (fun i hi => ?_)
  · simp only [tuxDeleteDirent, inodeDecLinkCount, setNlink_mode, tuxUpdateDirent]
  · exact hkeys.1.2 (List.mem_map.mpr ⟨a, ha, Prod.ext hc.1 hc.2⟩)
  · rw [List.mem_singleton.mp ha]
    exact hkind.trans hfile
  · simp only [tuxDeleteDirent, inodeDecLinkCount, setNlink_nlink, tuxUpdateDirent, hfile,
      Bool.false_eq_true, and_false, if_false, Nat.add_zero, hdec, names_cons]
    simp only [names, List.countP_nil]
    split
    · rename_i heq
      subst heq
      omega
    · omega
  · have := h.bound i hi
    simp only [tuxDeleteDirent, inodeDecLinkCount, setNlink_nlink, tuxUpdateDirent, hdec]
    split
    · rename_i heq
      subst heq
      omega
    · exact this

/-- A rename to a name that is not there. -/
theorem Inv.rename_new (h : Inv root fs) (hold : Positive fs oldDir oldDentry oldInode)
    (hdir : Present root fs newDir) (hneg : Negative fs newDir newDentry)
    (hok : (tux3Rename env fs oldInode oldDir oldDentry newDir newDentry).1 = 0) :
    Inv root (tux3Rename env fs oldInode oldDir oldDentry newDir newDentry).2 := by
  obtain ⟨o, ho, hod, hon, hoi, hofind⟩ := rename_find h hold
  simp only [tux3Rename, hofind, hneg.1, renameFinish] at hok ⊢
  by_cases hfull : (isDir (fs.inode oldInode).mode && newDir != oldDir &&
      decide (tuxLinkMax ≤ (fs.inode newDir).nlink)) = true
  · rw [if_pos hfull]
    exact h
  rw [if_neg hfull] at hok ⊢
  have hadd : env.addErr = 0 := by
    by_contra hc
    rw [if_pos hc] at hok
    exact hc hok
  rw [if_neg (not_not.mpr hadd)] at hok ⊢
  have hdel : env.delErr = 0 := by
    by_contra hc
    rw [if_pos hc] at hok
    exact hc hok
  rw [if_neg (not_not.mpr hdel)]
  subst hoi
  subst hod
  have hperm : fs.entries.Perm (o :: fs.entries.erase o) := List.perm_cons_erase ho
  have herase : ∀ e' : Dirent, ((fs.entries ++ [e']).erase o).Perm (e' :: fs.entries.erase o) := by
    intro e'
    rw [List.erase_append_left _ ho]
    exact List.perm_append_singleton e' _
  have hkey : ∀ a ∈ fs.entries.erase o, ¬ (a.dir = newDir ∧ a.name = newDentry.name) :=
    fun a ha => hneg.2.2 a (List.mem_of_mem_erase ha)
  have hod := h.dirs o ho
  have hlo := (h.links _ hod.1).2 hod
  by_cases hsub : (isDir (fs.inode o.inum).mode && newDir != o.dir) = true
  · have hnot : (fs.inode newDir).nlink < tuxLinkMax := by
      rw [hsub, Bool.true_and, decide_eq_true_eq] at hfull
      exact Nat.lt_of_not_le hfull
    rw [Bool.and_eq_true, bne_iff_ne] at hsub
    obtain ⟨hisdir, hdd⟩ := hsub
    have hcond : (isDir (fs.inode o.inum).mode && newDir != o.dir) = true := by
      rw [hisdir, Bool.true_and, bne_iff_ne]
      exact hdd
    have hpos : 0 < subdirs fs.entries fs.inode o.dir :=
      List.countP_pos_iff.mpr ⟨o, ho, by rw [decide_eq_true_eq]; exact ⟨rfl, hisdir⟩⟩
    have hdec : u32 ((fs.inode o.dir).nlink + (2 ^ 32 - 1)) = (fs.inode o.dir).nlink - 1 :=
      u32_dec (h.bound _ hod.1) (by omega)
    have hinc := u32_inc hnot
    simp only [hcond, if_true]
    refine @Inv.move root fs h _ o ⟨newDir, newDentry.name, o.inum, _⟩ [] (fs.entries.erase o)
      hperm (herase _) rfl rfl (fun i => ?_) hdir hneg.2.1 hkey (fun a ha => nomatch ha)
      (fun i hi => ?_) (fun i hi => ?_)
    · simp only [tuxDeleteDirent, inodeDecLinkCount, inodeIncLinkCount, setNlink_mode,
        tuxAddDirent]
    · simp only [tuxDeleteDirent, inodeDecLinkCount, inodeIncLinkCount, setNlink_nlink,
        tuxAddDirent, hisdir, and_true, names, List.countP_nil, Nat.add_zero]
      by_cases h1 : o.dir = i
      · subst h1
        simp only [hdd, if_true, if_false, hdec]
        omega
      · by_cases h2 : newDir = i
        · subst h2
          simp only [h1, if_true, if_false, hinc]
        · simp only [h1, h2, if_false]
    · have := h.bound i hi
      simp only [tuxDeleteDirent, inodeDecLinkCount, inodeIncLinkCount, setNlink_nlink,
        tuxAddDirent]
      by_cases h1 : o.dir = i
      · subst h1
        simp only [hdd, if_true, if_false, hdec]
        omega
      · by_cases h2 : newDir = i
        · subst h2
          simp only [h1, if_true, if_false, hinc]
          omega
        · simp only [h1, h2, if_false]
          exact this
  · simp only [hsub, Bool.false_eq_true, if_false]
    refine @Inv.move root fs h _ o ⟨newDir, newDentry.name, o.inum, _⟩ [] (fs.entries.erase o)
      hperm (herase _) rfl rfl (fun i => rfl) hdir hneg.2.1 hkey (fun a ha => nomatch ha)
      (fun i hi => ?_) (fun i hi => h.bound i hi)
    simp only [tuxDeleteDirent, tuxAddDirent, names, List.countP_nil, Nat.add_zero]
    by_cases hisdir : isDir (fs.inode o.inum).mode = true
    · rw [hisdir, Bool.true_and, bne_iff_ne, not_not] at hsub
      rw [hsub]
    · simp only [hisdir, Bool.false_eq_true, and_false, if_false]

end

/-! ## Runs -/

section
variable {root : ℕ} {fs : Fs} {env : Env} {op : Op}

theorem Inv.step (h : Inv root fs) (hop : Permitted root fs env op) (hmeets : ¬ ReplacesDir fs op)
    (hok : (step env fs op).1 = 0) : Inv root (step env fs op).2 := by
  cases op with
  | create dir dentry mode =>
      obtain ⟨h1, h2, h3, h4⟩ := hop
      exact h.mknod h1 h2 h4 (fun hd => by rw [h3] at hd; cases hd) hok
  | mknod dir dentry mode =>
      obtain ⟨h1, h2, h3, h4⟩ := hop
      exact h.mknod h1 h2 h4 (fun hd => by rw [h3] at hd; cases hd) hok
  | mkdir dir dentry mode =>
      obtain ⟨h1, h2, -, h4⟩ := hop
      exact h.mkdir h1 h2 h4 hok
  | link inode dir dentry =>
      obtain ⟨h1, h2, h3, h4⟩ := hop
      exact h.link h1 h2 h3 h4 hok
  | symlink dir dentry =>
      obtain ⟨h1, h2, h3⟩ := hop
      exact h.symlink h1 h2 h3 hok
  | unlink inode dir dentry => exact h.unlink hop.1 hop.2 hok
  | rmdir inode dir dentry => exact h.rmdir hop.1 hop.2 hok
  | rename oldInode oldDir oldDentry newDir newDentry =>
      obtain ⟨hold, hdir, hneg | ⟨newInode, hnew, hne, hkind⟩⟩ := hop
      · exact h.rename_new hold hdir hneg hok
      · have hfile : isDir (fs.inode oldInode).mode = false := by
          by_contra hc
          refine hmeets ⟨Bool.not_eq_false _ ▸ hc, ?_⟩
          rw [hnew.1]
          exact Option.some_ne_none _
        exact h.rename_over hold hnew hne hkind hfile hok
  | evict inode => exact h.evict hop.1 hop.2

theorem Inv.format (mode : ℕ) (inode : ℕ → Inode) (hmode : mode &&& sIfmt = 0) :
    Inv root (format root mode inode) := by
  have hinode : (Namei.format root mode inode).inode root = tuxNewInode ⟨0, 1⟩ (sIfdir ||| mode) :=
    Function.update_self _ _ _
  have hused : ∀ i, (Namei.format root mode inode).used i = true → i = root := fun i hi =>
    beq_iff_eq.mp hi
  have hdir : isDir ((Namei.format root mode inode).inode root).mode = true := by
    rw [hinode, isDir_newInode, isDir_mkdir hmode]
  have hlink : ((Namei.format root mode inode).inode root).nlink = 2 := by
    rw [hinode, newInode_nlink, isDir_newInode, isDir_mkdir hmode, if_pos rfl]
  refine ⟨List.nodup_nil, (fun e he => nomatch he), (fun e he => nomatch he),
    (fun e he => nomatch he), ⟨beq_self_eq_true root, hdir, rfl⟩, fun i _ => Nat.zero_le _,
    fun i hi => ?_, fun i hi => ?_⟩
  · obtain rfl := hused i hi
    exact ⟨fun hf => absurd (hdir.symm.trans hf) (by decide), fun _ => hlink⟩
  · obtain rfl := hused i hi
    rw [hlink]
    decide

theorem Reached.inv (h : Reached root (fun fs op => ¬ ReplacesDir fs op) fs) : Inv root fs := by
  induction h with
  | format mode inode hmode => exact Inv.format mode inode hmode
  | step _ env op hop hmeets hok ih => exact ih.step hop hmeets hok

/-- Link counts match the namespace in every run without a rename over a directory. -/
theorem linkCounts_match (h : Reached root (fun fs op => ¬ ReplacesDir fs op) fs) :
    LinksMatch root fs := h.inv.links

end

theorem linkCounts_match_mkdir :
    LinksMatch 0 (step ⟨1, 0, 0, 0, 0⟩ (format 0 0o755 fun _ => ⟨0, 0⟩)
      (.mkdir 0 ⟨[97], none⟩ 0o755)).2 :=
  linkCounts_match (.step (.format 0o755 _ (by decide)) ⟨1, 0, 0, 0, 0⟩ (.mkdir 0 ⟨[97], none⟩ 0o755)
    ⟨⟨by decide, by decide, Or.inl rfl⟩, ⟨rfl, by decide, (fun e he => nomatch he)⟩, by decide,
      by decide⟩ (fun h => h) (by decide))

/-- Two directories, one renamed over the other: the parent keeps the link of both. -/
theorem rename_over_directory : ¬ ∀ fs, Reached 0 (fun _ _ => True) fs → LinksMatch 0 fs := by
  intro h
  have h0 : Reached 0 (fun _ _ => True) (format 0 0o755 fun _ => ⟨0, 0⟩) :=
    .format 0o755 _ (by decide)
  have h1 := h0.step ⟨1, 0, 0, 0, 0⟩ (.mkdir 0 ⟨[97], none⟩ 0o755)
    ⟨⟨by decide, by decide, Or.inl rfl⟩, ⟨rfl, by decide, (fun e he => nomatch he)⟩, by decide,
      by decide⟩ trivial (by decide)
  have h2 := h1.step ⟨2, 0, 0, 0, 0⟩ (.mkdir 0 ⟨[98], none⟩ 0o755)
    ⟨⟨by decide, by decide, Or.inl rfl⟩, ⟨rfl, by decide, by decide⟩, by decide, by decide⟩ trivial
    (by decide)
  have h3 := h2.step ⟨3, 0, 0, 0, 0⟩ (.rename 1 0 ⟨[97], some 1⟩ 0 ⟨[98], some 2⟩)
    ⟨⟨rfl, by decide⟩, ⟨by decide, by decide, Or.inl rfl⟩,
      Or.inr ⟨2, ⟨rfl, by decide⟩, by decide, by decide⟩⟩ trivial (by decide)
  have hroot := (h _ h3 0 (by decide)).2 ⟨by decide, by decide, Or.inl rfl⟩
  revert hroot
  decide

end Tux3.Namei
