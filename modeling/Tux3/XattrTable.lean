import Tux3.XattrCounts

/-!
# The atom table is consistent

After every sequence of `set_xattr` and `del_xattr` the names and the counts hold, as long as each
cache fits in `u16`. A longer value is cut.
-/
namespace Tux3.Xattr

open Tux3.Dir

section
variable {bits N : ℕ} {s s' : Atable} {val : Values} {ref : Ref} {fl : List ℕ} {atom inode : ℕ}
  {name : List UInt8}

/-! ## Steps -/

/-- Who holds an atom changes with the cache of one inode, for one atom. -/
theorem holds_put (h : Names bits N s val ref fl) (value : Option (List UInt8)) (a j : ℕ) :
    Holds (Function.update s.xcache inode (put (s.xcache inode) atom value)) a j ↔
      if j = inode ∧ a = atom then value.isSome = true else Holds s.xcache a j := by
  unfold Holds
  by_cases hj : j = inode
  · subst hj
    rw [Function.update_self]
    by_cases ha : a = atom
    · subst ha
      rw [if_pos ⟨rfl, rfl⟩]
      constructor
      · rintro ⟨x, hx, hxa⟩
        rcases (mem_put (h.distinct j) value x).mp hx with ⟨-, hne⟩ | ⟨d, rfl, -⟩
        · exact absurd hxa hne
        · rfl
      · intro hsome
        obtain ⟨d, hd⟩ := Option.isSome_iff_exists.mp hsome
        exact ⟨_, (mem_put (h.distinct j) value _).mpr (Or.inr ⟨d, hd, rfl⟩), rfl⟩
    · rw [if_neg (fun hand => ha hand.2)]
      constructor
      · rintro ⟨x, hx, hxa⟩
        rcases (mem_put (h.distinct j) value x).mp hx with ⟨hx, -⟩ | ⟨d, -, rfl⟩
        · exact ⟨x, hx, hxa⟩
        · exact absurd hxa.symm ha
      · rintro ⟨x, hx, rfl⟩
        exact ⟨x, (mem_put (h.distinct j) value x).mpr (Or.inl ⟨hx, ha⟩), rfl⟩
  · rw [Function.update_of_ne hj, if_neg (fun hand => hj hand.1)]

theorem lookup_isSome (xcache : List Attr) (atom : ℕ) :
    (xcacheLookup xcache atom).isSome = true ↔ ∃ x ∈ xcache, x.atom = atom := by
  rw [xcacheLookup, List.find?_isSome]
  simp only [decide_eq_true_eq]

theorem removeOld_absent {xcache : List Attr} (h : ∀ x ∈ xcache, x.atom ≠ atom) :
    removeOld xcache atom = xcache :=
  List.eraseP_of_forall_not fun x hx => by simpa using h x hx

theorem xcacheSize_append (l m : List Attr) :
    xcacheSize (l ++ m) = xcacheSize l + (m.map fun x => 4 + x.body.length).sum := by
  rw [xcacheSize, xcacheSize, List.map_append, List.sum_append, Nat.add_assoc]

/-- A `set_xattr` after which the cache of the inode fits in `u16` and the count of the atom in 32
bits. -/
def Fits (blockbits : ℕ) (s : Atable) (inode : ℕ) (name data : List UInt8) : Prop :=
  let atom := findAtom blockbits s name
  xcacheSize (removeOld (s.xcache inode) atom) + (4 + data.length) < 2 ^ 16 ∧
    ((xcacheLookup (s.xcache inode) atom).isSome = true ∨ atom = noAtom ∨ s.refs atom + 1 < 2 ^ 32)

/-- What holds after every step. -/
def Inv (blockbits N : ℕ) (s : Atable) (val : Values) : Prop :=
  ∃ ref fl, Names blockbits N s val ref fl ∧ Counts N s

theorem count_same {p q : ℕ → Prop} [DecidablePred p] [DecidablePred q] (h : ∀ j, p j ↔ q j) :
    Nat.count p N = Nat.count q N :=
  Nat.le_antisymm (Nat.count_mono_left fun j _ => (h j).mp)
    (Nat.count_mono_left fun j _ => (h j).mpr)

theorem Counts.replace (h : Counts N s) (hnames : Names bits N s val ref fl)
    (hheld : Holds s.xcache atom inode) (d : List UInt8) :
    Counts N { s with
      xcache := Function.update s.xcache inode (put (s.xcache inode) atom (some d)) } := by
  intro a
  obtain ⟨hlo, hhi, hrefs⟩ := h a
  refine ⟨hlo, hhi, hrefs.trans (count_same fun j => ?_)⟩
  dsimp only
  rw [holds_put hnames (some d) a j]
  by_cases hand : j = inode ∧ a = atom
  · rw [if_pos hand, hand.1, hand.2]
    exact ⟨fun _ => rfl, fun _ => hheld⟩
  · rw [if_neg hand]

/-- One more inode with the atom, and one more reference. -/
theorem Counts.hold (h : Counts N s) (hnames : Names bits N s val ref fl) (hi : inode < N)
    (hnot : ¬ Holds s.xcache atom inode) (d : List UInt8) {lo hirefs : ℕ → ℕ}
    (hother : ∀ b, b ≠ atom → lo b = s.lorefs b ∧ hirefs b = s.hirefs b)
    (hlo : lo atom < 2 ^ 16) (hhi : hirefs atom < 2 ^ 16)
    (heq : hirefs atom * 2 ^ 16 + lo atom = s.refs atom + 1) :
    Counts N { s with
      xcache := Function.update s.xcache inode (put (s.xcache inode) atom (some d))
      lorefs := lo
      hirefs := hirefs } := by
  intro a
  obtain ⟨hlo', hhi', hrefs⟩ := h a
  unfold Atable.refs at heq hrefs ⊢
  dsimp only
  by_cases ha : a = atom
  · subst ha
    refine ⟨hlo, hhi, ?_⟩
    rw [heq, hrefs]
    refine (count_hold hi ?_ hnot fun j hj => ?_).symm
    · rw [holds_put hnames (some d) a inode, if_pos ⟨rfl, rfl⟩]
      rfl
    · rw [holds_put hnames (some d) a j, if_neg (fun hand => hj hand.1)]
  · rw [(hother a ha).1, (hother a ha).2]
    refine ⟨hlo', hhi', hrefs.trans (count_same fun j => ?_)⟩
    rw [holds_put hnames (some d) a j, if_neg (fun hand => ha hand.2)]

/-- One inode less with the atom, and one reference less. -/
theorem Counts.drop (h : Counts N s) (hnames : Names bits N s val ref fl) (hi : inode < N)
    (hheld : Holds s.xcache atom inode) {lo hirefs : ℕ → ℕ}
    (hother : ∀ b, b ≠ atom → lo b = s.lorefs b ∧ hirefs b = s.hirefs b)
    (hlo : lo atom < 2 ^ 16) (hhi : hirefs atom < 2 ^ 16)
    (heq : hirefs atom * 2 ^ 16 + lo atom + 1 = s.refs atom) :
    Counts N { s with
      xcache := Function.update s.xcache inode (put (s.xcache inode) atom none)
      lorefs := lo
      hirefs := hirefs } := by
  intro a
  obtain ⟨hlo', hhi', hrefs⟩ := h a
  unfold Atable.refs at heq hrefs ⊢
  dsimp only
  by_cases ha : a = atom
  · subst ha
    refine ⟨hlo, hhi, ?_⟩
    have hcount : Nat.count (Holds s.xcache a) N = Nat.count (Holds
        (Function.update s.xcache inode (put (s.xcache inode) a none)) a) N + 1 := by
      refine count_hold hi hheld ?_ fun j hj => ?_
      · rw [holds_put hnames none a inode, if_pos ⟨rfl, rfl⟩]
        exact Bool.false_ne_true
      · rw [holds_put hnames none a j, if_neg (fun hand => hj hand.1)]
    exact Nat.add_right_cancel (heq.trans (hrefs.trans hcount))
  · rw [(hother a ha).1, (hother a ha).2]
    refine ⟨hlo', hhi', hrefs.trans (count_same fun j => ?_)⟩
    rw [holds_put hnames none a j, if_neg (fun hand => ha hand.2)]

/-- `set_xattr`. -/
theorem Inv.set (h : Inv bits N s val) (hi : inode < N) {data : List UInt8}
    {create replace : Bool} {err : Option Errno} (hname : 0 < name.length)
    (hfit : tuxRecLen name.length ≤ 2 ^ bits)
    (havail : findAtom bits s name ≠ noAtom ∨ s.freeatom ≠ 0 ∨ s.atomgen < 2 ^ 16)
    (hfits : Fits bits s inode name data)
    (hset : setXattr bits s inode name data create replace = some (s', err)) :
    Inv bits N s' (if err = none then
      Function.update val inode (Function.update (val inode) name (some data)) else val) := by
  obtain ⟨ref, fl, hnames, hcounts⟩ := h
  obtain ⟨hsize, hcount⟩ := hfits
  have hfind := hnames.find name
  have havail' : ref name ≠ none ∨ s.freeatom ≠ 0 ∨ s.atomgen < 2 ^ 16 := by
    refine havail.imp_left fun hne hnone => hne ?_
    rw [hfind, hnone]
    rfl
  rw [setXattr] at hset
  cases hmake : makeAtom bits s name with
  | none =>
      rw [hmake] at hset
      cases hset
  | some made =>
      obtain ⟨atom, s₁⟩ := made
      rw [hmake] at hset
      obtain ⟨ref', fl', v, hnames₁, hv, rfl, hatom, hlo, hhi, hx⟩ :=
        hnames.make hname hfit havail' hmake
      have hcounts₁ : Counts N s₁ := by
        intro a
        rw [Atable.refs, hlo, hhi, hx]
        exact hcounts a
      have hlt := (hnames₁.atoms name v hv).2
      have hgen := hnames₁.gen.2
      have hremove : removeOld (s.xcache inode) (findAtom bits s name) =
          removeOld (s₁.xcache inode) v.inum := by
        rw [hx]
        rcases hatom with hatom | ⟨hno, hnew⟩
        · rw [hatom]
        · have hheld : ∀ x ∈ s.xcache inode, x.atom ≠ noAtom ∧ x.atom ≠ v.inum := by
            intro x hmem
            obtain ⟨nm, w, hw, hwx⟩ := hnames.held inode x hmem
            refine ⟨hwx ▸ hnames.ne_noAtom hw, fun heq => hnew ⟨nm, w, hw, hwx.trans heq⟩⟩
          rw [hno, removeOld_absent fun x hmem => (hheld x hmem).1,
            removeOld_absent fun x hmem => (hheld x hmem).2]
      have hput : removeOld (s₁.xcache inode) v.inum ++
          [⟨v.inum % 2 ^ 16, data.take (data.length % 2 ^ 16)⟩] =
            put (s₁.xcache inode) v.inum (some data) := by
        rw [Nat.mod_eq_of_lt (show v.inum < 2 ^ 16 by omega),
          Nat.mod_eq_of_lt (show data.length < 2 ^ 16 by omega), List.take_length]
        rfl
      have hsmall : xcacheSize (put (s₁.xcache inode) v.inum (some data)) < 2 ^ 16 := by
        rw [put, xcacheSize_append, ← hremove]
        simpa using hsize
      dsimp only at hset
      rw [if_neg (hnames₁.ne_noAtom hv), xcacheUpdate] at hset
      dsimp only at hset
      rw [hput, if_neg (show ¬ 2 ^ 16 ≤ _ from Nat.not_le.mpr hsmall)] at hset
      have hnames₂ := hnames₁.put hv hi (some data)
      by_cases hold : (xcacheLookup (s₁.xcache inode) v.inum).isSome = true
      · simp only [hold, Bool.not_true, Bool.false_and, Bool.true_and, Bool.false_eq_true,
          if_false, if_true] at hset
        by_cases hcreate : create = true
        · rw [if_pos hcreate] at hset
          cases hset
          exact ⟨ref', fl', hnames₁, hcounts₁⟩
        · rw [if_neg hcreate] at hset
          cases hset
          rw [if_pos rfl]
          exact ⟨ref', fl', hnames₂,
            hcounts₁.replace hnames₁ ((lookup_isSome _ _).mp hold) data⟩
      · simp only [hold, Bool.not_false, Bool.false_and, Bool.true_and, Bool.false_eq_true,
          if_false] at hset
        by_cases hreplace : replace = true
        · rw [if_pos hreplace] at hset
          cases hset
          exact ⟨ref', fl', hnames₁, hcounts₁⟩
        · rw [if_neg hreplace] at hset
          have hnot : ¬ Holds s₁.xcache v.inum inode := fun hheld =>
            hold ((lookup_isSome _ _).mpr hheld)
          obtain ⟨hlo₁, hhi₁, hrefs₁⟩ := hcounts₁ v.inum
          have hmax : s.refs v.inum + 1 < 2 ^ 32 := by
            rcases hatom with hatom | ⟨-, hnew⟩
            · rw [hatom, ← hx] at hcount
              exact (hcount.resolve_left hold).resolve_left (hnames₁.ne_noAtom hv)
            · have hzero : Nat.count (Holds s.xcache v.inum) N = 0 := by
                refine Nat.count_iff_forall_not.mpr fun j _ => ?_
                rintro ⟨x, hmem, hxa⟩
                exact hnew (hxa ▸ hnames.held j x hmem)
              rw [(hcounts v.inum).2.2, hzero]
              decide
          obtain ⟨lo, hirefs, huse, hother, hlo', hhi', heq⟩ := @useAtom_up bits
            { s₁ with
              xcache := Function.update s₁.xcache inode
                (put (s₁.xcache inode) v.inum (some data)) } v.inum hlo₁ hhi₁ (by
                rw [Atable.refs, ← hlo, ← hhi] at hmax
                exact hmax)
          rw [huse] at hset
          cases hset
          rw [if_pos rfl]
          exact ⟨ref', fl', hnames₂.recount lo hirefs,
            hcounts₁.hold hnames₁ hi hnot data hother hlo' hhi' heq⟩

/-- `del_xattr`. -/
theorem Inv.del (h : Inv bits N s val) (hi : inode < N) {err : Option Errno}
    (hdel : delXattr bits s inode name = (s', err)) :
    Inv bits N s' (if err = none then
      Function.update val inode (Function.update (val inode) name none) else val) := by
  obtain ⟨ref, fl, hnames, hcounts⟩ := h
  rw [delXattr, hnames.find name] at hdel
  cases href : ref name with
  | none =>
      rw [href] at hdel
      dsimp only [Option.map_none, Option.getD_none] at hdel
      rw [if_pos rfl] at hdel
      cases hdel
      exact ⟨ref, fl, hnames, hcounts⟩
  | some v =>
      rw [href] at hdel
      dsimp only [Option.map_some, Option.getD_some] at hdel
      rw [if_neg (hnames.ne_noAtom href)] at hdel
      by_cases hlookup : (xcacheLookup (s.xcache inode) v.inum).isNone = true
      · rw [if_pos hlookup] at hdel
        cases hdel
        exact ⟨ref, fl, hnames, hcounts⟩
      · have hheld : Holds s.xcache v.inum inode := by
          rw [← Option.not_isSome, Bool.not_eq_true', Bool.not_eq_false] at hlookup
          exact (lookup_isSome _ _).mp hlookup
        have hput : removeOld (s.xcache inode) v.inum = put (s.xcache inode) v.inum none :=
          (List.append_nil _).symm
        rw [if_neg hlookup, hput] at hdel
        have hnames₁ := hnames.put href hi none
        obtain ⟨hlo, hhi, hrefs⟩ := hcounts v.inum
        have hpos : 0 < s.refs v.inum := by
          rw [hrefs]
          exact Nat.lt_of_le_of_lt (Nat.zero_le _) (Nat.count_strict_mono hheld hi)
        obtain ⟨lo, hirefs, huse, hother, hlo', hhi', heq⟩ := @useAtom_down bits
          { s with
            xcache := Function.update s.xcache inode (put (s.xcache inode) v.inum none) }
          v.inum hlo hhi hpos
        have hcounts₁ := hcounts.drop hnames hi hheld hother hlo' hhi' heq
        have hnames₂ := hnames₁.recount lo hirefs
        have hrefs₁ : Atable.refs { s with
            xcache := Function.update s.xcache inode (put (s.xcache inode) v.inum none) } v.inum =
              s.refs v.inum := rfl
        rw [huse, hrefs₁] at hdel
        by_cases hlast : s.refs v.inum = 1
        · have hunheld : ∀ i, ∀ x ∈ Function.update s.xcache inode
              (put (s.xcache inode) v.inum none) i, x.atom ≠ v.inum := by
            intro i x hx hxa
            have hin : i < N := by
              by_contra hge
              have hempty := hnames₁.outside i (Nat.le_of_not_lt hge)
              dsimp only at hempty
              rw [hempty] at hx
              cases hx
            have hcount := (hcounts₁ v.inum).2.2
            have hlt := Nat.count_strict_mono (p := Holds (Function.update s.xcache inode
              (put (s.xcache inode) v.inum none)) v.inum) ⟨x, hx, hxa⟩ hin
            unfold Atable.refs at hcount hlast heq
            dsimp only at hcount hlast heq
            omega
          obtain ⟨dict, unatom, hkill, hnames₃⟩ := hnames₂.kill href hunheld
          rw [if_pos hlast, hkill] at hdel
          cases hdel
          rw [if_pos rfl]
          exact ⟨_, _, hnames₃, hcounts₁⟩
        · rw [if_neg hlast] at hdel
          cases hdel
          rw [if_pos rfl]
          exact ⟨ref, fl, hnames₂, hcounts₁⟩

/-! ## Runs -/

/-- `get_xattr` reads the value. -/
theorem Names.get (h : Names bits N s val ref fl) (inode : ℕ) (name : List UInt8) :
    getXattr bits s inode name = match val inode name with
      | some d => .ok d
      | none => .error .enoattr := by
  have hvalues := h.values inode name
  rw [getXattr, h.find name]
  cases href : ref name with
  | none =>
      have hnone : val inode name = none := by
        rw [Option.eq_none_iff_forall_ne_some]
        intro d hd
        obtain ⟨v, hv, -⟩ := (hvalues d).mp hd
        rw [href] at hv
        cases hv
      rw [hnone]
      rfl
  | some v =>
      dsimp only [Option.map_some, Option.getD_some]
      rw [if_neg (h.ne_noAtom href)]
      cases hlookup : xcacheLookup (s.xcache inode) v.inum with
      | none =>
          have hnone : val inode name = none := by
            rw [Option.eq_none_iff_forall_ne_some]
            intro d hd
            obtain ⟨w, hw, hmem⟩ := (hvalues d).mp hd
            rw [href] at hw
            cases hw
            have hsome := (lookup_isSome _ _).mpr ⟨_, hmem, rfl⟩
            rw [hlookup] at hsome
            cases hsome
          rw [hnone]
      | some x =>
          have hatom := List.find?_some hlookup
          have hmem := List.mem_of_find?_eq_some hlookup
          have hx : x.atom = v.inum := by simpa using hatom
          have hval := (hvalues x.body).mpr ⟨v, href, hx ▸ hmem⟩
          rw [hval]

section
variable (blockbits N : ℕ)

/-- The table without atoms. -/
def emptyAtable (block : ℕ → Block) (unatom : ℕ → ℕ) : Atable :=
  ⟨⟨block, 0⟩, unatom, fun _ => 0, fun _ => 0, 0, 1, fun _ => []⟩

/-- The sequences of `set_xattr` and `del_xattr` on inodes below a bound, with a condition on each
`set_xattr`. A name without an atom gets one below `2 ^ 16`. -/
inductive Run (cond : Atable → ℕ → List UInt8 → List UInt8 → Prop) : Atable → Values → Prop where
  | start (block : ℕ → Block) (unatom : ℕ → ℕ) :
      Run cond (emptyAtable block unatom) fun _ _ => none
  | set {s s' : Atable} {val : Values} {inode : ℕ} {name data : List UInt8} {create replace : Bool}
      {err : Option Errno} (h : Run cond s val) (hi : inode < N) (hlen : 0 < name.length)
      (hle : name.length ≤ 255) (hfit : tuxRecLen name.length ≤ 2 ^ blockbits)
      (havail : findAtom blockbits s name ≠ noAtom ∨ s.freeatom ≠ 0 ∨ s.atomgen < 2 ^ 16)
      (hcond : cond s inode name data)
      (hset : setXattr blockbits s inode name data create replace = some (s', err)) :
      Run cond s' (if err = none then
        Function.update val inode (Function.update (val inode) name (some data)) else val)
  | del {s s' : Atable} {val : Values} {inode : ℕ} {name : List UInt8} {err : Option Errno}
      (h : Run cond s val) (hi : inode < N)
      (hdel : delXattr blockbits s inode name = (s', err)) :
      Run cond s' (if err = none then
        Function.update val inode (Function.update (val inode) name none) else val)

end

theorem names_start (block : ℕ → Block) (unatom : ℕ → ℕ) :
    Names bits N (emptyAtable block unatom) (fun _ _ => none) (fun _ => none) [] := by
  refine ⟨⟨fun _ => [], 0, ⟨(Nat.zero_mul _).symm, Nat.zero_le _, fun h => by omega,
    fun h => by omega, fun i hi => by omega, fun nm v => ⟨(fun h => nomatch h), ?_⟩⟩,
    fun i hi => by omega⟩, (fun _ _ _ _ h => nomatch h), (fun _ _ h => nomatch h),
    (fun _ _ h => nomatch h), ⟨Nat.one_pos, Nat.one_le_two_pow⟩, rfl, List.nodup_nil,
    fun a => ⟨(fun h => nomatch h), ?_⟩, (fun _ _ h => nomatch h), fun _ => List.nodup_nil,
    fun _ _ => rfl, fun i nm d => ⟨(fun h => nomatch h), ?_⟩⟩
  · rintro ⟨i, hi, -⟩
    omega
  · rintro ⟨⟨hpos, hlt⟩, -⟩
    exact absurd hlt (Nat.not_lt.mpr hpos)
  · rintro ⟨v, hv, -⟩
    cases hv

theorem counts_start (block : ℕ → Block) (unatom : ℕ → ℕ) :
    Counts N (emptyAtable block unatom) := by
  intro a
  have hrefs : (emptyAtable block unatom).refs a = 0 := by
    simp only [Atable.refs, emptyAtable, Nat.zero_mul]
  have hzero : Nat.count (Holds (emptyAtable block unatom).xcache a) N = 0 := by
    refine Nat.count_iff_forall_not.mpr fun j _ => ?_
    rintro ⟨x, hx, -⟩
    cases hx
  refine ⟨Nat.two_pow_pos 16, Nat.two_pow_pos 16, ?_⟩
  rw [hrefs, hzero]

theorem run_inv (h : Run bits N (Fits bits) s val) : Inv bits N s val := by
  induction h with
  | start block unatom =>
      exact ⟨fun _ => none, [], names_start block unatom, counts_start block unatom⟩
  | set h hi hlen hle hfit havail hcond hset ih => exact ih.set hi hlen hfit havail hcond hset
  | del h hi hdel ih => exact ih.del hi hdel

end

instance (blockbits : ℕ) (s : Atable) (inode : ℕ) (name data : List UInt8) :
    Decidable (Fits blockbits s inode name data) :=
  inferInstanceAs (Decidable
    (xcacheSize (removeOld (s.xcache inode) (findAtom blockbits s name)) + (4 + data.length) <
        2 ^ 16 ∧
      ((xcacheLookup (s.xcache inode) (findAtom blockbits s name)).isSome = true ∨
        findAtom blockbits s name = noAtom ∨ s.refs (findAtom blockbits s name) + 1 < 2 ^ 32)))

end Tux3.Xattr
