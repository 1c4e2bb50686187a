import Tux3.Lib.Rooted

/-!
# Inheritance along a tree

Nodes can carry labels. A node without a label inherits from the nearest labelled ancestor.
-/
namespace Rooted

variable {V β : Type} {o : V} {mem mem' : V → Prop} {parent parent' : V → V} {depth : V → ℕ}

/-! ## Inheritance -/

/-- `w` inherits from `a`: below `a`, with no label from `w` up to below `a`. -/
inductive Inherits (o : V) (parent : V → V) (labelled : V → Prop) (a : V) : V → Prop where
  | child {w : V} (hwo : w ≠ o) (hw : ¬ labelled w) (hp : parent w = a) :
      Inherits o parent labelled a w
  | step {w : V} (hwo : w ≠ o) (hw : ¬ labelled w) (h : Inherits o parent labelled a (parent w)) :
      Inherits o parent labelled a w

section Inherits
variable {labelled labelled' : V → Prop} {a b w : V}

theorem Inherits.ne_origin (h : Inherits o parent labelled a w) : w ≠ o := by
  cases h <;> assumption

theorem Inherits.unlabelled (h : Inherits o parent labelled a w) : ¬ labelled w := by
  cases h <;> assumption

theorem inherits_iff (hwo : w ≠ o) : Inherits o parent labelled a w ↔
    ¬ labelled w ∧ (parent w = a ∨ Inherits o parent labelled a (parent w)) := by
  constructor
  · intro h
    cases h with
    | child _ hw hp => exact ⟨hw, Or.inl hp⟩
    | step _ hw h => exact ⟨hw, Or.inr h⟩
  · rintro ⟨hw, hp | h⟩
    · exact .child hwo hw hp
    · exact .step hwo hw h

theorem Inherits.depth_lt (t : Tree o mem parent depth) (hw : mem w)
    (h : Inherits o parent labelled a w) : depth a < depth w := by
  induction h with
  | child hwo _ hp =>
      have := (t.up _ hw hwo).2
      rw [hp] at this
      omega
  | step hwo _ _ ih =>
      obtain ⟨h1, h2⟩ := t.up _ hw hwo
      have := ih h1
      omega

theorem Inherits.mem_ancestor (t : Tree o mem parent depth) (hw : mem w)
    (h : Inherits o parent labelled a w) : mem a := by
  induction h with
  | child hwo _ hp => exact hp ▸ (t.up _ hw hwo).1
  | step hwo _ _ ih => exact ih (t.up _ hw hwo).1

/-- The first step down: the child of `a` that `w` inherits through. -/
theorem inherits_through (t : Tree o mem parent depth) (hw : mem w) :
    Inherits o parent labelled a w ↔ ∃ c, mem c ∧ c ≠ o ∧ parent c = a ∧ ¬ labelled c ∧
      (w = c ∨ Inherits o parent labelled c w) := by
  constructor
  · intro h
    induction h with
    | child hwo hl hp => exact ⟨_, hw, hwo, hp, hl, Or.inl rfl⟩
    | step hwo hl _ ih =>
        obtain ⟨c, hc, hco, hcp, hcl, heq | hin⟩ := ih (t.up _ hw hwo).1
        · exact ⟨c, hc, hco, hcp, hcl, Or.inr (.child hwo hl heq)⟩
        · exact ⟨c, hc, hco, hcp, hcl, Or.inr (.step hwo hl hin)⟩
  · rintro ⟨c, -, hco, hcp, hcl, rfl | hin⟩
    · exact .child hco hcl hcp
    · induction hin with
      | child hwo hl hp => exact .step hwo hl (hp ▸ .child hco hcl hcp)
      | step hwo hl _ ih => exact .step hwo hl (ih (t.up _ hw hwo).1)

/-- A node inherits through one child only. -/
theorem inherits_child_unique (t : Tree o mem parent depth) {c d : V} (hw : mem w)
    (hc : mem c) (hd : mem d) (hdepth : depth c = depth d)
    (h1 : w = c ∨ Inherits o parent labelled c w) (h2 : w = d ∨ Inherits o parent labelled d w) :
    c = d := by
  rcases h1 with rfl | h1
  · rcases h2 with rfl | h2
    · rfl
    · have := h2.depth_lt t hw
      omega
  · induction h1 with
    | child hwo hl hp =>
        subst hp
        rcases h2 with rfl | h2
        · have := (t.up _ hw hwo).2
          omega
        · cases h2 with
          | child _ _ hp => exact hp
          | step _ _ h =>
              have := h.depth_lt t hc
              omega
    | step hwo hl h ih =>
        obtain ⟨hp1, hp2⟩ := t.up _ hw hwo
        rcases h2 with rfl | h2
        · have := h.depth_lt t hp1
          omega
        · refine ih hp1 ?_
          cases h2 with
          | child _ _ hp => exact Or.inl hp
          | step _ _ h => exact Or.inr h

/-- Labels and parents below `a` decide who inherits from it. -/
theorem Inherits.congr (t : Tree o mem parent depth) (hw : mem w)
    (h : Inherits o parent labelled a w)
    (hlabel : ∀ v, mem v → v ≠ o → depth a < depth v → (labelled' v → labelled v))
    (hparent : ∀ v, mem v → v ≠ o → depth a < depth v → parent' v = parent v) :
    Inherits o parent' labelled' a w := by
  have hdepth := h.depth_lt t hw
  induction h with
  | child hwo hl hp =>
      exact .child hwo (mt (hlabel _ hw hwo hdepth) hl) ((hparent _ hw hwo hdepth).trans hp)
  | step hwo hl h ih =>
      have hp1 := (t.up _ hw hwo).1
      refine .step hwo (mt (hlabel _ hw hwo hdepth) hl) ?_
      rw [hparent _ hw hwo hdepth]
      exact ih hp1 (h.depth_lt t hp1)

theorem inherits_unique (ha : labelled a) (hb : labelled b) (h : Inherits o parent labelled a w)
    (h' : Inherits o parent labelled b w) : a = b := by
  induction h with
  | child hwo _ hp =>
      rcases ((inherits_iff hwo).mp h').2 with hp' | hin
      · exact hp.symm.trans hp'
      · exact absurd (hp ▸ ha) hin.unlabelled
  | step hwo _ hin ih =>
      rcases ((inherits_iff hwo).mp h').2 with hp' | hin'
      · exact absurd (hp' ▸ hb) hin.unlabelled
      · exact ih hin'

/-- Nobody but a leaf `v` notices that it gets a label. -/
theorem Inherits.label_leaf (t : Tree o mem parent depth) {v : V}
    (hleaf : ∀ u, mem u → u ≠ o → parent u ≠ v) (hlabel : ∀ u, labelled' u → u = v ∨ labelled u)
    (hw : mem w) (hwv : w ≠ v) (h : Inherits o parent labelled a w) :
    Inherits o parent labelled' a w := by
  induction h with
  | child hwo hl hp => exact .child hwo (fun hl' => ((hlabel _ hl').elim hwv hl)) hp
  | step hwo hl _ ih =>
      refine .step hwo (fun hl' => ((hlabel _ hl').elim hwv hl)) ?_
      exact ih (t.up _ hw hwo).1 (hleaf _ hw hwo)

theorem Inherits.transfer {S : V → Prop}
    (hS : ∀ v, S v → v ≠ o → parent' v = parent v ∧ S (parent v))
    (hlabel : ∀ v, S v → labelled' v → labelled v) (hw : S w)
    (h : Inherits o parent labelled a w) : Inherits o parent' labelled' a w := by
  induction h with
  | child hwo hl hp => exact .child hwo (mt (hlabel _ hw) hl) ((hS _ hw hwo).1.trans hp)
  | step hwo hl _ ih =>
      obtain ⟨h1, h2⟩ := hS _ hw hwo
      exact .step hwo (mt (hlabel _ hw) hl) (h1 ▸ ih h2)

/-- An unlabelled node with one child can be replaced by it. -/
theorem Inherits.splice (t : Tree o mem parent depth) {p c : V} (hpo : p ≠ o) (hcp : parent c = p)
    (honly : ∀ v, mem v → v ≠ o → parent v = p → v = c) (hnew : parent' c = parent p)
    (hold : ∀ v, mem v → v ≠ o → v ≠ c → v ≠ p → parent' v = parent v) (hap : a ≠ p) (hw : mem w)
    (hwp : w ≠ p) (h : Inherits o parent labelled a w) : Inherits o parent' labelled a w := by
  have hboth : (w ≠ p → Inherits o parent' labelled a w) ∧
      (w = p → parent p = a ∨ Inherits o parent' labelled a (parent p)) := by
    clear hwp
    induction h with
    | child hwo hl hp =>
        refine ⟨fun hwp => .child hwo hl ?_, fun hwp => Or.inl (hwp ▸ hp)⟩
        rw [hold _ hw hwo (fun hwc => hap ?_) hwp, hp]
        rw [← hp, hwc, hcp]
    | step hwo hl h ih =>
        obtain ⟨hp1, hp2⟩ := t.up _ hw hwo
        obtain ⟨ih1, ih2⟩ := ih hp1
        refine ⟨fun hwp => ?_, fun hwp => ?_⟩
        · rename_i w
          by_cases hwc : w = c
          · subst hwc
            rcases ih2 hcp with heq | hin
            · exact .child hwo hl (hnew.trans heq)
            · exact .step hwo hl (hnew ▸ hin)
          · have hne : parent w ≠ p := fun heq => hwc (honly w hw hwo heq)
            exact .step hwo hl (hold w hw hwo hwc hwp ▸ ih1 hne)
        · subst hwp
          exact Or.inr (ih1 (t.parent_ne hw hpo))
  exact hboth.1 hwp

end Inherits

/-! ## The value of a node -/

/-- The label of the nearest labelled ancestor, in `n` steps up. -/
def nearest (parent : V → V) (label : V → Option β) (dflt : β) : ℕ → V → β
  | 0, _ => dflt
  | n + 1, v => (label v).getD (nearest parent label dflt n (parent v))

/-- A node's own label, or the one it inherits. -/
def value (parent : V → V) (depth : V → ℕ) (label : V → Option β) (dflt : β) (v : V) : β :=
  nearest parent label dflt (depth v) v

section Value
variable {label label' : V → Option β} {dflt dflt' : β} {depth' : V → ℕ} {v : V}

theorem value_origin (t : Tree o mem parent depth) : value parent depth label dflt o = dflt := by
  rw [value, t.depth_origin, nearest]

theorem value_step (t : Tree o mem parent depth) (hv : mem v) (hvo : v ≠ o) :
    value parent depth label dflt v =
      (label v).getD (value parent depth label dflt (parent v)) := by
  rw [value, (t.up v hv hvo).2, nearest, value]

theorem value_unique (t : Tree o mem parent depth) (f : V → β) (horigin : f o = dflt)
    (hstep : ∀ v, mem v → v ≠ o → f v = (label v).getD (f (parent v))) (hv : mem v) :
    value parent depth label dflt v = f v := by
  refine t.induct (P := fun v => value parent depth label dflt v = f v) ?_ ?_ hv
  · rw [value_origin t, horigin]
  · intro v hv hvo ih
    rw [value_step t hv hvo, hstep v hv hvo, ih]

theorem value_congr (t : Tree o mem parent depth) (hv : mem v) (same : V → Prop)
    (horigin : same o → dflt' = dflt)
    (hlabel : ∀ v, mem v → v ≠ o → same v → label' v = label v)
    (hup : ∀ v, mem v → v ≠ o → same v → label v = none → same (parent v)) (hs : same v) :
    value parent depth label' dflt' v = value parent depth label dflt v := by
  refine t.induct (P := fun v => same v → value parent depth label' dflt' v =
    value parent depth label dflt v) ?_ ?_ hv hs
  · intro hs
    rw [value_origin t, value_origin t, horigin hs]
  · intro v hv hvo ih hs
    rw [value_step t hv hvo, value_step t hv hvo, hlabel v hv hvo hs]
    cases hl : label v with
    | some x => rfl
    | none => exact ih (hup v hv hvo hs hl)

theorem value_unlabelled (t : Tree o mem parent depth) (hv : mem v)
    (hnone : ∀ u, u ≠ o → Below o parent u v → label u = none) :
    value parent depth label dflt v = dflt := by
  revert hnone
  refine t.induct (P := fun v => (∀ u, u ≠ o → Below o parent u v → label u = none) →
    value parent depth label dflt v = dflt) (fun _ => value_origin t) ?_ hv
  intro v hv hvo ih hnone
  rw [value_step t hv hvo, hnone v hvo .refl, Option.getD_none]
  exact ih fun u huo hu => hnone u huo (.step hvo hu)

theorem value_nearest (t : Tree o mem parent depth) {x : V} {b : β} (hv : mem v) (hxo : x ≠ o)
    (hx : Below o parent x v) (hl : label x = some b)
    (hnone : ∀ u, Below o parent u v → depth x < depth u → label u = none) :
    value parent depth label dflt v = b := by
  induction hx with
  | refl => rw [value_step t hv hxo, hl, Option.getD_some]
  | step hvo hx ih =>
      obtain ⟨hp, hd⟩ := t.up _ hv hvo
      have hle := hx.depth_le t hp
      rw [value_step t hv hvo, hnone _ .refl (by omega), Option.getD_none]
      exact ih hp fun u hu => hnone u (.step hvo hu)

theorem value_grow {parent' : V → V} (t : Tree o mem parent depth)
    (t' : Tree o mem' parent' depth') (hmem : ∀ v, mem v → mem' v)
    (hup : ∀ v, mem v → v ≠ o → value parent' depth' label dflt (parent' v) =
      value parent' depth' label dflt (parent v)) (hv : mem v) :
    value parent' depth' label dflt v = value parent depth label dflt v := by
  refine (value_unique t _ (value_origin t') (fun v hv hvo => ?_) hv).symm
  rw [value_step t' (hmem v hv) hvo, hup v hv hvo]

theorem value_splice {parent' : V → V} (t : Tree o mem parent depth)
    (t' : Tree o mem' parent' depth') {p c : V} (hpo : p ≠ o) (hp : mem p) (hcp : parent c = p)
    (hmem : ∀ v, mem' v ↔ v ≠ p ∧ mem v) (hnew : parent' c = parent p)
    (hold : ∀ v, mem v → v ≠ o → v ≠ c → v ≠ p → parent' v = parent v) (hl : label p = none)
    (hv : mem' v) :
    value parent' depth' label dflt v = value parent depth label dflt v := by
  refine value_unique t' _ (value_origin t) (fun v hv hvo => ?_) hv
  obtain ⟨hvp, hv⟩ := (hmem v).mp hv
  rw [value_step t hv hvo]
  by_cases hvc : v = c
  · subst hvc
    rw [hcp, hnew, value_step t hp hpo, hl, Option.getD_none]
  · rw [hold v hv hvo hvc hvp]

end Value

/-! ## Heirs -/

/-- The nodes that inherit from a node and count, in `n` levels below it. -/
def heirs (kids : V → List V) (labelled counts : V → Bool) : ℕ → V → List V
  | 0, _ => []
  | n + 1, a => (kids a).flatMap fun c =>
      if labelled c then []
      else (if counts c then [c] else []) ++ heirs kids labelled counts n c

section Heirs
variable {kids : V → List V} {labelled counts : V → Bool} {height n : ℕ} {a w : V}

theorem mem_heirs (t : Tree o mem parent depth) (hkids : Kids o mem parent kids)
    (hheight : ∀ v, mem v → depth v < height) (ha : mem a) (hn : height ≤ n + depth a) :
    w ∈ heirs kids labelled counts n a ↔
      mem w ∧ counts w = true ∧ Inherits o parent (fun v => labelled v = true) a w := by
  induction n generalizing a with
  | zero =>
      have := hheight a ha
      omega
  | succ n ih =>
      have hmem : ∀ c, c ∈ kids a → (w ∈ heirs kids labelled counts n c ↔
          mem w ∧ counts w = true ∧ Inherits o parent (fun v => labelled v = true) c w) := by
        intro c hc
        obtain ⟨hc1, hco, hcp⟩ := (hkids.mem_iff a c).mp hc
        have hd := (t.up c hc1 hco).2
        rw [hcp] at hd
        exact ih hc1 (by omega)
      simp only [heirs, List.mem_flatMap]
      constructor
      · rintro ⟨c, hc, hw⟩
        obtain ⟨hc1, hco, hcp⟩ := (hkids.mem_iff a c).mp hc
        by_cases hl : labelled c = true
        · simp only [hl, if_true, List.not_mem_nil] at hw
        · simp only [hl, Bool.false_eq_true, if_false, List.mem_append] at hw
          rcases hw with hw | hw
          · by_cases hcount : counts c = true
            · simp only [hcount, if_true, List.mem_singleton] at hw
              subst hw
              exact ⟨hc1, hcount, .child hco hl hcp⟩
            · simp only [hcount, Bool.false_eq_true, if_false, List.not_mem_nil] at hw
          · obtain ⟨hw1, hcount, hin⟩ := (hmem c hc).mp hw
            exact ⟨hw1, hcount, (inherits_through t hw1).mpr ⟨c, hc1, hco, hcp, hl, Or.inr hin⟩⟩
      · rintro ⟨hw1, hcount, hin⟩
        obtain ⟨c, hc1, hco, hcp, hl, hw⟩ := (inherits_through t hw1).mp hin
        have hc := (hkids.mem_iff a c).mpr ⟨hc1, hco, hcp⟩
        refine ⟨c, hc, ?_⟩
        simp only [hl, Bool.false_eq_true, if_false, List.mem_append]
        rcases hw with rfl | hw
        · exact Or.inl (by simp only [hcount, if_true, List.mem_singleton])
        · exact Or.inr ((hmem c hc).mpr ⟨hw1, hcount, hw⟩)

theorem heirs_nodup (t : Tree o mem parent depth) (hkids : Kids o mem parent kids)
    (hheight : ∀ v, mem v → depth v < height) (ha : mem a) (hn : height ≤ n + depth a) :
    (heirs kids labelled counts n a).Nodup := by
  induction n generalizing a with
  | zero => exact List.nodup_nil
  | succ n ih =>
      have hkid : ∀ c ∈ kids a, mem c ∧ depth c = depth a + 1 := by
        intro c hc
        obtain ⟨hc1, hco, hcp⟩ := (hkids.mem_iff a c).mp hc
        have hd := (t.up c hc1 hco).2
        rw [hcp] at hd
        exact ⟨hc1, hd⟩
      have hbelow : ∀ c ∈ kids a, ∀ w, w ∈ (if labelled c then [] else
          (if counts c then [c] else []) ++ heirs kids labelled counts n c) →
          mem w ∧ (w = c ∨ Inherits o parent (fun v => labelled v = true) c w) := by
        intro c hc w hw
        obtain ⟨hc1, hd⟩ := hkid c hc
        split at hw
        · cases hw
        · rcases List.mem_append.mp hw with hw | hw
          · split at hw
            · rw [List.mem_singleton] at hw
              exact ⟨hw ▸ hc1, Or.inl hw⟩
            · cases hw
          · obtain ⟨hw1, -, hin⟩ := (mem_heirs t hkids hheight hc1 (by omega)).mp hw
            exact ⟨hw1, Or.inr hin⟩
      rw [heirs, List.nodup_flatMap]
      refine ⟨fun c hc => ?_, ?_⟩
      · obtain ⟨hc1, hd⟩ := hkid c hc
        have hn' : height ≤ n + depth c := by omega
        split
        · exact List.nodup_nil
        · split
          · rw [List.singleton_append, List.nodup_cons]
            refine ⟨fun hin => ?_, ih hc1 hn'⟩
            have hin' := ((mem_heirs t hkids hheight hc1 hn').mp hin).2.2
            exact Nat.lt_irrefl _ (hin'.depth_lt t hc1)
          · exact ih hc1 hn'
      · refine (hkids.nodup a).imp_of_mem fun {c d} hc hd hne => ?_
        intro w hw hw'
        obtain ⟨hw1, h1⟩ := hbelow c hc w hw
        obtain ⟨-, h2⟩ := hbelow d hd w hw'
        obtain ⟨hc1, hcd⟩ := hkid c hc
        obtain ⟨hd1, hdd⟩ := hkid d hd
        exact hne (inherits_child_unique t hw1 hc1 hd1 (hcd.trans hdd.symm) h1 h2)

end Heirs

/-! ## Pruning -/

/-- Labels without counting heirs are dropped, and labels are passed on to only children. -/
structure Pruned (o : V) (mem : V → Prop) (parent : V → V) (counts : V → Prop)
    (drop pass : V → Prop) (heir : V → V) (labelled labelled' : V → Prop) : Prop where
  labels : ∀ v, labelled' v ↔ (labelled v ∧ ¬ drop v ∧ ¬ pass v) ∨ ∃ y, pass y ∧ v = heir y
  drops : ∀ y, drop y → ¬ counts y ∧
    ∀ w, mem w → counts w → ¬ Inherits o parent labelled y w
  passes : ∀ y, pass y → labelled y ∧ ¬ counts y ∧ ¬ labelled (heir y) ∧ parent (heir y) = y ∧
    y ≠ o
  only : ∀ y, pass y → ∀ v, mem v → v ≠ o → parent v = y → v = heir y

section Pruned
variable {counts drop pass labelled labelled' : V → Prop} {heir : V → V} {x y w : V}

theorem Pruned.inherits_of (h : Pruned o mem parent counts drop pass heir labelled labelled')
    (hx : ¬ pass x) (hin : Inherits o parent labelled x w) : Inherits o parent labelled' x w := by
  induction hin with
  | child hwo hw hp =>
      refine .child hwo (fun hl => ?_) hp
      rcases (h.labels _).mp hl with ⟨hl, -⟩ | ⟨y, hy, rfl⟩
      · exact hw hl
      · rw [(h.passes y hy).2.2.2.1] at hp
        exact hx (hp ▸ hy)
  | step hwo hw hin ih =>
      refine .step hwo (fun hl => ?_) ih
      rcases (h.labels _).mp hl with ⟨hl, -⟩ | ⟨y, hy, rfl⟩
      · exact hw hl
      · rw [(h.passes y hy).2.2.2.1] at hin
        exact hin.unlabelled (h.passes y hy).1

theorem Pruned.inherits_cases (t : Tree o mem parent depth)
    (h : Pruned o mem parent counts drop pass heir labelled labelled') (hw : mem w)
    (hin : Inherits o parent labelled' x w) : pass w ∨ Inherits o parent labelled x w ∨
      ∃ y, drop y ∧ (w = y ∨ Inherits o parent labelled y w) := by
  have hlost : ∀ {v}, ¬ labelled' v → ¬ labelled v ∨ drop v ∨ pass v := by
    intro v hl
    by_contra hnot
    push Not at hnot
    exact hl ((h.labels v).mpr (Or.inl hnot))
  induction hin with
  | child hwo hl hp =>
      rcases hlost hl with hl | hd | hp'
      · exact Or.inr (Or.inl (.child hwo hl hp))
      · exact Or.inr (Or.inr ⟨_, hd, Or.inl rfl⟩)
      · exact Or.inl hp'
  | step hwo hl _ ih =>
      rcases hlost hl with hl' | hd | hp'
      · rcases ih (t.up _ hw hwo).1 with hpass | hin | ⟨y, hy, heq | hin⟩
        · exact absurd ((h.labels _).mpr (Or.inr ⟨_, hpass, h.only _ hpass _ hw hwo rfl⟩)) hl
        · exact Or.inr (Or.inl (.step hwo hl' hin))
        · exact Or.inr (Or.inr ⟨y, hy, Or.inr (.child hwo hl' heq)⟩)
        · exact Or.inr (Or.inr ⟨y, hy, Or.inr (.step hwo hl' hin)⟩)
      · exact Or.inr (Or.inr ⟨_, hd, Or.inl rfl⟩)
      · exact Or.inl hp'

theorem Pruned.inherits_iff (t : Tree o mem parent depth)
    (h : Pruned o mem parent counts drop pass heir labelled labelled') (hw : mem w)
    (hcounts : counts w) (hx : ¬ pass x) :
    Inherits o parent labelled' x w ↔ Inherits o parent labelled x w := by
  refine ⟨fun hin => ?_, h.inherits_of hx⟩
  rcases h.inherits_cases t hw hin with hpass | hin | ⟨y, hy, rfl | hin⟩
  · exact absurd hcounts (h.passes w hpass).2.1
  · exact hin
  · exact absurd hcounts (h.drops w hy).1
  · exact absurd hin ((h.drops y hy).2 w hw hcounts)

theorem Pruned.heirs_pass (t : Tree o mem parent depth)
    (h : Pruned o mem parent counts drop pass heir labelled labelled') (hw : mem w) (hy : pass y)
    (hin : Inherits o parent labelled y w) :
    w = heir y ∨ Inherits o parent labelled' (heir y) w := by
  obtain ⟨c, hc, hco, hcp, -, hin⟩ := (inherits_through t hw).mp hin
  have heq := h.only y hy c hc hco hcp
  subst heq
  refine hin.imp_right (h.inherits_of fun hpass => ?_)
  exact (h.passes y hy).2.2.1 (h.passes _ hpass).1

/-- Pruning keeps the values of the nodes that count. -/
theorem Pruned.value_eq (t : Tree o mem parent depth)
    (h : Pruned o mem parent counts drop pass heir labelled labelled') {label label' : V → Option β}
    {dflt : β} (hlabelled : ∀ v, labelled v ↔ label v ≠ none)
    (hkeep : ∀ v, ¬ drop v → ¬ pass v → (∀ y, pass y → v ≠ heir y) → label' v = label v)
    (hheir : ∀ y, pass y → label' (heir y) = label y) (hw : mem w) (hcounts : counts w) :
    value parent depth label' dflt w = value parent depth label dflt w := by
  have hall : ¬ pass w → (∀ y, drop y → w ≠ y ∧ ¬ Inherits o parent labelled y w) →
      value parent depth label' dflt w = value parent depth label dflt w := by
    refine t.induct (P := fun w => ¬ pass w →
      (∀ y, drop y → w ≠ y ∧ ¬ Inherits o parent labelled y w) →
      value parent depth label' dflt w = value parent depth label dflt w) ?_ ?_ hw
    · intro _ _
      rw [value_origin t, value_origin t]
    · intro v hv hvo ih hpass hdrop
      rw [value_step t hv hvo, value_step t hv hvo]
      by_cases hy : ∃ y, pass y ∧ v = heir y
      · obtain ⟨y, hy, rfl⟩ := hy
        obtain ⟨hl, -, hnone, hp, hyo⟩ := h.passes y hy
        obtain ⟨b, hb⟩ := Option.ne_none_iff_exists'.mp ((hlabelled y).mp hl)
        have hval : value parent depth label dflt y =
            (label y).getD (value parent depth label dflt (parent y)) :=
          value_step t (hp ▸ (t.up _ hv hvo).1) hyo
        rw [hheir y hy, hp, not_not.mp (mt (hlabelled _).mpr hnone), Option.getD_none, hval, hb,
          Option.getD_some, Option.getD_some]
      · push Not at hy
        rw [hkeep v (fun hd => (hdrop v hd).1 rfl) hpass hy]
        cases hl : label v with
        | some b => rfl
        | none =>
            have hun : ¬ labelled v := fun hlab => (hlabelled v).mp hlab hl
            refine ih (fun hp => hy _ hp (h.only _ hp v hv hvo rfl)) fun y hy' => ⟨?_, ?_⟩
            · intro heq
              exact (hdrop y hy').2 (.child hvo hun heq)
            · intro hin
              exact (hdrop y hy').2 (.step hvo hun hin)
  refine hall (fun hp => (h.passes w hp).2.1 hcounts) fun y hy => ⟨?_, ?_⟩
  · rintro rfl
    exact (h.drops w hy).1 hcounts
  · exact (h.drops y hy).2 w hw hcounts

end Pruned

end Rooted
