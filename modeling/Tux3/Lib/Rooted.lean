import Mathlib.Data.Finset.Card
import Mathlib.Data.List.Nodup
import Mathlib.Data.Set.Function
import Mathlib.Tactic.Common

/-!
# Trees by parent pointers

A tree is a set of nodes with an origin, a parent of each node and the depth that the parents
give it.
-/
namespace Rooted

variable {V β : Type} {o : V} {mem mem' : V → Prop} {parent parent' : V → V} {depth : V → ℕ}

structure Tree (o : V) (mem : V → Prop) (parent : V → V) (depth : V → ℕ) : Prop where
  origin : mem o
  depth_origin : depth o = 0
  up : ∀ v, mem v → v ≠ o → mem (parent v) ∧ depth v = depth (parent v) + 1

section Tree
variable {P : V → Prop} {v : V}

theorem Tree.induct (h : Tree o mem parent depth) (horigin : P o)
    (hstep : ∀ v, mem v → v ≠ o → P (parent v) → P v) (hv : mem v) : P v := by
  induction hn : depth v generalizing v with
  | zero =>
      by_cases hvo : v = o
      · exact hvo ▸ horigin
      · have := (h.up v hv hvo).2
        omega
  | succ n ih =>
      by_cases hvo : v = o
      · exact hvo ▸ horigin
      · obtain ⟨hp, hd⟩ := h.up v hv hvo
        exact hstep v hv hvo (ih hp (by omega))

theorem Tree.depth_pos (h : Tree o mem parent depth) (hv : mem v) (hvo : v ≠ o) : 0 < depth v := by
  rw [(h.up v hv hvo).2]
  exact Nat.succ_pos _

theorem Tree.parent_ne (h : Tree o mem parent depth) (hv : mem v) (hvo : v ≠ o) : parent v ≠ v := by
  intro heq
  have := (h.up v hv hvo).2
  rw [heq] at this
  omega

theorem Tree.iterate (h : Tree o mem parent depth) (hv : mem v) :
    parent^[depth v] v = o ∧ ∀ n < depth v, parent^[n] v ≠ o := by
  refine h.induct (P := fun v => parent^[depth v] v = o ∧ ∀ n < depth v, parent^[n] v ≠ o)
    ?_ ?_ hv
  · rw [h.depth_origin]
    exact ⟨rfl, fun n hn => absurd hn (Nat.not_lt_zero n)⟩
  · intro v hv hvo ih
    rw [(h.up v hv hvo).2]
    refine ⟨ih.1, fun n hn => ?_⟩
    cases n with
    | zero => exact hvo
    | succ n => exact ih.2 n (Nat.lt_of_succ_lt_succ hn)

theorem Tree.ancestor_at (h : Tree o mem parent depth) (hv : mem v) :
    ∀ n ≤ depth v, ∃ a, mem a ∧ depth a = n := by
  refine h.induct (P := fun v => ∀ n ≤ depth v, ∃ a, mem a ∧ depth a = n) ?_ ?_ hv
  · intro n hn
    exact ⟨o, h.origin, by rw [h.depth_origin] at *; omega⟩
  · intro v hv hvo ih n hn
    have hd := (h.up v hv hvo).2
    by_cases heq : n = depth v
    · exact ⟨v, hv, heq.symm⟩
    · exact ih n (by omega)

/-- A tree on `n` nodes has depth below `n`. -/
theorem Tree.depth_lt (h : Tree o mem parent depth) {nodes : Finset V}
    (hnodes : ∀ v, mem v → v ∈ nodes) (hv : mem v) : depth v < nodes.card := by
  have hsub : Finset.range (depth v + 1) ⊆ nodes.image depth := by
    intro n hn
    obtain ⟨a, ha, hd⟩ := h.ancestor_at hv n (Nat.lt_succ_iff.mp (Finset.mem_range.mp hn))
    exact Finset.mem_image.mpr ⟨a, hnodes a ha, hd⟩
  have hcard := Finset.card_le_card hsub
  rw [Finset.card_range] at hcard
  exact Nat.lt_of_lt_of_le hcard Finset.card_image_le

end Tree

/-! ## Edits -/

section Edits
variable [DecidableEq V]

/-- A new leaf `c` under `p`. -/
theorem Tree.insertLeaf (h : Tree o mem parent depth) {c p : V} (hc : ¬ mem c) (hp : mem p)
    (hmem : ∀ v, mem' v ↔ v = c ∨ mem v) (hnew : parent' c = p)
    (hold : ∀ v, mem v → v ≠ o → parent' v = parent v) :
    Tree o mem' parent' (Function.update depth c (depth p + 1)) := by
  have hne : ∀ v, mem v → v ≠ c := fun v hv heq => hc (heq ▸ hv)
  refine ⟨(hmem o).mpr (Or.inr h.origin), ?_, fun v hv hvo => ?_⟩
  · rw [Function.update_of_ne (hne o h.origin), h.depth_origin]
  · cases (hmem v).mp hv with
    | inl heq =>
        subst heq
        rw [hnew, Function.update_self, Function.update_of_ne (hne p hp)]
        exact ⟨(hmem p).mpr (Or.inr hp), rfl⟩
    | inr hin =>
        obtain ⟨h1, h2⟩ := h.up v hin hvo
        rw [hold v hin hvo, Function.update_of_ne (hne v hin), Function.update_of_ne (hne _ h1)]
        exact ⟨(hmem _).mpr (Or.inr h1), h2⟩

/-- A new node `r` between the origin and its children. -/
theorem Tree.insertRoot (h : Tree o mem parent depth) {r : V} (hr : ¬ mem r)
    (hmem : ∀ v, mem' v ↔ v = r ∨ mem v) (hnew : parent' r = o)
    (htop : ∀ v, mem v → v ≠ o → parent v = o → parent' v = r)
    (hold : ∀ v, mem v → v ≠ o → parent v ≠ o → parent' v = parent v) :
    Tree o mem' parent' fun v => if v = o then 0 else if v = r then 1 else depth v + 1 := by
  have hne : ∀ v, mem v → v ≠ r := fun v hv heq => hr (heq ▸ hv)
  have hro : r ≠ o := fun heq => hr (heq ▸ h.origin)
  refine ⟨(hmem o).mpr (Or.inr h.origin), if_pos rfl, fun v hv hvo => ?_⟩
  cases (hmem v).mp hv with
  | inl heq =>
      subst heq
      rw [hnew]
      simp only [if_neg hro, if_true]
      exact ⟨(hmem o).mpr (Or.inr h.origin), trivial⟩
  | inr hin =>
      obtain ⟨h1, h2⟩ := h.up v hin hvo
      by_cases hp : parent v = o
      · rw [htop v hin hvo hp]
        rw [hp, h.depth_origin] at h2
        simp only [if_neg hvo, if_neg (hne v hin), if_neg hro, if_true, h2]
        exact ⟨(hmem r).mpr (Or.inl rfl), trivial⟩
      · rw [hold v hin hvo hp]
        simp only [if_neg hvo, if_neg (hne v hin), if_neg hp, if_neg (hne _ h1), h2]
        exact ⟨(hmem _).mpr (Or.inr h1), trivial⟩

omit [DecidableEq V] in
theorem Tree.removeLeaf (h : Tree o mem parent depth) {t : V} (hto : t ≠ o)
    (hleaf : ∀ v, mem v → v ≠ o → parent v ≠ t) (hmem : ∀ v, mem' v ↔ v ≠ t ∧ mem v)
    (hold : ∀ v, mem v → v ≠ o → v ≠ t → parent' v = parent v) : Tree o mem' parent' depth := by
  refine ⟨(hmem o).mpr ⟨hto.symm, h.origin⟩, h.depth_origin, fun v hv hvo => ?_⟩
  obtain ⟨hvt, hin⟩ := (hmem v).mp hv
  obtain ⟨h1, h2⟩ := h.up v hin hvo
  rw [hold v hin hvo hvt]
  exact ⟨(hmem _).mpr ⟨hleaf v hin hvo, h1⟩, h2⟩

/-- `u` is `v` or one of its ancestors. -/
inductive Below (o : V) (parent : V → V) (u : V) : V → Prop where
  | refl : Below o parent u u
  | step {v : V} (hvo : v ≠ o) (h : Below o parent u (parent v)) : Below o parent u v

omit [DecidableEq V] in
theorem Below.depth_le (h : Tree o mem parent depth) {u v : V} (hv : mem v)
    (hb : Below o parent u v) : depth u ≤ depth v := by
  induction hb with
  | refl => exact Nat.le_refl _
  | step hvo _ ih =>
      obtain ⟨h1, h2⟩ := h.up _ hv hvo
      have := ih h1
      omega

omit [DecidableEq V] in
theorem below_iff {u v : V} (hvo : v ≠ o) :
    Below o parent u v ↔ v = u ∨ Below o parent u (parent v) := by
  constructor
  · intro hb
    cases hb with
    | refl => exact Or.inl rfl
    | step _ hb => exact Or.inr hb
  · rintro (rfl | hb)
    · exact .refl
    · exact .step hvo hb

open Classical in
omit [DecidableEq V] in
/-- A node with one child `c` is replaced by it: the depths below `c` shrink by one. -/
theorem Tree.splice (h : Tree o mem parent depth) {p c : V} (hpo : p ≠ o) (hp : mem p)
    (hco : c ≠ o) (hc : mem c) (hcp : parent c = p)
    (honly : ∀ v, mem v → v ≠ o → parent v = p → v = c) (hmem : ∀ v, mem' v ↔ v ≠ p ∧ mem v)
    (hnew : parent' c = parent p)
    (hold : ∀ v, mem v → v ≠ o → v ≠ c → v ≠ p → parent' v = parent v) :
    Tree o mem' parent' fun v => if Below o parent c v then depth v - 1 else depth v := by
  have hbo : ¬ Below o parent c o := fun hb => by
    cases hb with
    | refl => exact hco rfl
    | step hvo _ => exact hvo rfl
  obtain ⟨hp1, hp2⟩ := h.up p hp hpo
  have hc2 := (h.up c hc hco).2
  rw [hcp] at hc2
  refine ⟨(hmem o).mpr ⟨hpo.symm, h.origin⟩, ?_, fun v hv hvo => ?_⟩
  · rw [if_neg hbo]
    exact h.depth_origin
  obtain ⟨hvp, hin⟩ := (hmem v).mp hv
  obtain ⟨h1, h2⟩ := h.up v hin hvo
  by_cases hvc : v = c
  · subst hvc
    have hnot : ¬ Below o parent v (parent p) := fun hb => by
      have := hb.depth_le h hp1
      omega
    rw [hnew, if_pos .refl, if_neg hnot]
    exact ⟨(hmem _).mpr ⟨h.parent_ne hp hpo, hp1⟩, by omega⟩
  · have hpv : parent v ≠ p := fun heq => hvc (honly v hin hvo heq)
    rw [hold v hin hvo hvc hvp]
    refine ⟨(hmem _).mpr ⟨hpv, h1⟩, ?_⟩
    have hiff : Below o parent c v ↔ Below o parent c (parent v) :=
      (below_iff hvo).trans (or_iff_right hvc)
    by_cases hb : Below o parent c (parent v)
    · have := hb.depth_le h h1
      rw [if_pos (hiff.mpr hb), if_pos hb]
      omega
    · rw [if_neg (mt hiff.mp hb), if_neg hb]
      exact h2

end Edits

/-! ## Ancestors and descendants -/

section Congr
variable {S : V → Prop} {u v : V}

theorem below_origin : Below o parent u o ↔ u = o := by
  constructor
  · intro hb
    cases hb with
    | refl => rfl
    | step hvo _ => exact absurd rfl hvo
  · rintro rfl
    exact .refl

theorem Below.congr (hS : ∀ v, S v → v ≠ o → parent' v = parent v ∧ S (parent v)) (hv : S v)
    (h : Below o parent u v) : Below o parent' u v := by
  induction h with
  | refl => exact .refl
  | step hvo _ ih =>
      obtain ⟨h1, h2⟩ := hS _ hv hvo
      exact .step hvo (h1 ▸ ih h2)

theorem below_congr (hS : ∀ v, S v → v ≠ o → parent' v = parent v ∧ S (parent v)) (hv : S v) :
    Below o parent' u v ↔ Below o parent u v := by
  refine ⟨Below.congr (fun w hw hwo => ?_) hv, Below.congr hS hv⟩
  obtain ⟨h1, h2⟩ := hS w hw hwo
  exact ⟨h1.symm, h1 ▸ h2⟩

end Congr

/-- The lists of children of a tree. -/
structure Kids (o : V) (mem : V → Prop) (parent : V → V) (kids : V → List V) : Prop where
  mem_iff : ∀ v c, c ∈ kids v ↔ mem c ∧ c ≠ o ∧ parent c = v
  nodup : ∀ v, (kids v).Nodup

section Kids
variable {kids kids' : V → List V} {p c q r : V}

/-- The lists of children behind a new node between the origin and its only child. -/
theorem Kids.insertRoot (h : Kids o mem parent kids) (ht : Tree o mem parent depth) (hr : ¬ mem r)
    (honly : kids o = [q]) (hnew : kids' o = [r]) (hbelow : kids' r = [q])
    (hrest : ∀ v, v ≠ o → v ≠ r → kids' v = kids v) (hpr : parent' r = o) (hpq : parent' q = r)
    (hpo : ∀ v, v ≠ q → parent' v = parent v) :
    Kids o (fun v => v = r ∨ mem v) parent' kids' := by
  obtain ⟨hq, hqo, hqp⟩ := (h.mem_iff o q).mp (by rw [honly]; exact List.mem_cons_self)
  have hro : r ≠ o := fun heq => hr (heq ▸ ht.origin)
  have hone : ∀ x, mem x → x ≠ o → parent x = o → x = q := by
    intro x hx hxo hxp
    have hin := (h.mem_iff o x).mpr ⟨hx, hxo, hxp⟩
    rw [honly] at hin
    exact List.mem_singleton.mp hin
  refine ⟨fun v x => ?_, fun v => ?_⟩
  · by_cases hvo : v = o
    · subst hvo
      rw [hnew, List.mem_singleton]
      constructor
      · rintro rfl
        exact ⟨Or.inl rfl, hro, hpr⟩
      · rintro ⟨hx, hxo, hxp⟩
        have hxq : x ≠ q := by
          rintro rfl
          exact hro (hpq.symm.trans hxp)
        rw [hpo x hxq] at hxp
        exact hx.resolve_right fun hx => hxq (hone x hx hxo hxp)
    · by_cases hvr : v = r
      · subst hvr
        rw [hbelow, List.mem_singleton]
        constructor
        · rintro rfl
          exact ⟨Or.inr hq, hqo, hpq⟩
        · rintro ⟨hx, hxo, hxp⟩
          by_contra hxq
          rw [hpo x hxq] at hxp
          rcases hx with rfl | hx
          · rw [hpo x hxq] at hpr
            exact hvo (hxp.symm.trans hpr)
          · exact hr (hxp ▸ (ht.up x hx hxo).1)
      · rw [hrest v hvo hvr, h.mem_iff]
        constructor
        · rintro ⟨hx, hxo, rfl⟩
          exact ⟨Or.inr hx, hxo, hpo x fun hxq => hvo (hxq ▸ hqp)⟩
        · rintro ⟨rfl | hx, hxo, rfl⟩
          · exact absurd hpr hvo
          · have hxq : x ≠ q := fun hxq => hvr (hxq ▸ hpq)
            exact ⟨hx, hxo, (hpo x hxq).symm⟩
  · by_cases hvo : v = o
    · rw [hvo, hnew]
      exact List.nodup_singleton r
    · by_cases hvr : v = r
      · rw [hvr, hbelow]
        exact List.nodup_singleton q
      · rw [hrest v hvo hvr]
        exact h.nodup v

/-- The lists of children when a node is taken out whose only child takes its place. -/
theorem Kids.splice (h : Kids o mem parent kids) (ht : Tree o mem parent depth) (hp : mem p)
    (hpo : p ≠ o) (honly : kids p = [c]) (hgone : kids' p = [])
    (hmem : ∀ x, x ∈ kids' (parent p) ↔ x = c ∨ x ≠ p ∧ x ∈ kids (parent p))
    (hnodup : (kids' (parent p)).Nodup)
    (hrest : ∀ v, v ≠ parent p → v ≠ p → kids' v = kids v) (hpc : parent' c = parent p)
    (hold : ∀ v, v ≠ p → v ≠ c → parent' v = parent v) :
    Kids o (fun v => v ≠ p ∧ mem v) parent' kids' := by
  obtain ⟨hc, hco, hcp⟩ := (h.mem_iff p c).mp (by rw [honly]; exact List.mem_cons_self)
  have hne : c ≠ p := fun heq => ht.parent_ne hc hco (hcp.trans heq.symm)
  have hgp := ht.parent_ne hp hpo
  have hone : ∀ x, mem x → x ≠ o → parent x = p → x = c := by
    intro x hx hxo hxp
    have hin := (h.mem_iff p x).mpr ⟨hx, hxo, hxp⟩
    rw [honly] at hin
    exact List.mem_singleton.mp hin
  refine ⟨fun v x => ?_, fun v => ?_⟩
  · by_cases hvg : v = parent p
    · subst hvg
      rw [hmem, h.mem_iff]
      constructor
      · rintro (rfl | ⟨hxp, hx, hxo, heq⟩)
        · exact ⟨⟨hne, hc⟩, hco, hpc⟩
        · have hxc : x ≠ c := fun hxc => hgp (heq.symm.trans (hxc ▸ hcp))
          exact ⟨⟨hxp, hx⟩, hxo, (hold x hxp hxc).trans heq⟩
      · rintro ⟨⟨hxp, hx⟩, hxo, heq⟩
        by_cases hxc : x = c
        · exact Or.inl hxc
        · exact Or.inr ⟨hxp, hx, hxo, (hold x hxp hxc).symm.trans heq⟩
    · by_cases hvp : v = p
      · subst hvp
        rw [hgone]
        refine ⟨fun hx => absurd hx List.not_mem_nil, fun ⟨⟨hxp, hx⟩, hxo, heq⟩ => ?_⟩
        by_cases hxc : x = c
        · exact absurd ((hxc ▸ heq).symm.trans hpc) hvg
        · exact absurd (hone x hx hxo ((hold x hxp hxc).symm.trans heq)) hxc
      · rw [hrest v hvg hvp, h.mem_iff]
        constructor
        · rintro ⟨hx, hxo, rfl⟩
          have hxp : x ≠ p := fun hxp => hvg (congrArg parent hxp)
          exact ⟨⟨hxp, hx⟩, hxo, hold x hxp fun hxc => hvp (hxc ▸ hcp)⟩
        · rintro ⟨⟨hxp, hx⟩, hxo, rfl⟩
          have hxc : x ≠ c := fun hxc => hvg (hxc ▸ hpc)
          exact ⟨hx, hxo, (hold x hxp hxc).symm⟩
  · by_cases hvg : v = parent p
    · exact hvg ▸ hnodup
    · by_cases hvp : v = p
      · rw [hvp, hgone]
        exact List.nodup_nil
      · rw [hrest v hvg hvp]
        exact h.nodup v

end Kids

/-- `u` is reached from `v` over the lists of children. -/
inductive Desc (kids : V → List V) (v : V) : V → Prop where
  | refl : Desc kids v v
  | step {u c : V} (h : Desc kids v u) (hc : c ∈ kids u) : Desc kids v c

section Desc
variable {kids : V → List V} {u v : V}

theorem Desc.head {c : V} (hc : c ∈ kids v) (h : Desc kids c u) : Desc kids v u := by
  induction h with
  | refl => exact .step .refl hc
  | step _ hc' ih => exact .step ih hc'

theorem desc_iff : Desc kids v u ↔ u = v ∨ ∃ c ∈ kids v, Desc kids c u := by
  constructor
  · intro h
    induction h with
    | refl => exact Or.inl rfl
    | step _ hc ih =>
        rcases ih with rfl | ⟨d, hd, hin⟩
        · exact Or.inr ⟨_, hc, .refl⟩
        · exact Or.inr ⟨d, hd, .step hin hc⟩
  · rintro (rfl | ⟨c, hc, h⟩)
    · exact .refl
    · exact h.head hc

theorem Below.desc (t : Tree o mem parent depth) (hkids : Kids o mem parent kids) (hv : mem v)
    (h : Below o parent u v) : Desc kids u v := by
  induction h with
  | refl => exact .refl
  | step hvo _ ih =>
      have hp := (t.up _ hv hvo).1
      exact .step (ih hp) ((hkids.mem_iff _ _).mpr ⟨hv, hvo, rfl⟩)

theorem Tree.below_root (t : Tree o mem parent depth) (hkids : Kids o mem parent kids) {r : V}
    (hr : kids o = [r]) (hv : mem v) (hvo : v ≠ o) : Below o parent r v := by
  revert hvo
  refine t.induct (P := fun v => v ≠ o → Below o parent r v) (fun h => absurd rfl h) ?_ hv
  intro v hv hvo ih _
  by_cases hp : parent v = o
  · have hmem := (hkids.mem_iff o v).mpr ⟨hv, hvo, hp⟩
    rw [hr, List.mem_singleton] at hmem
    exact hmem ▸ .refl
  · exact .step hvo (ih hp)

end Desc

end Rooted
