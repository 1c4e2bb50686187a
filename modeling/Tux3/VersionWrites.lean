import Tux3.VersionReads
import Tux3.VersionGrowth

/-!
# Writes

A write gives a new or an inherited element to one snapshot, or changes the chunk of its own. The
other snapshots read what they read.
-/
namespace Tux3.Version

open Rooted

section
variable {sb sb' : Sb} {v w a tag data : ℕ}

/-! ## Chunks -/

theorem freeChunkFrom_succ {n start : ℕ} (hstart : start ≤ maxChunks) :
    freeChunkFrom sb (n + 1) start = if sb.allocmap (start % maxChunks) then
      freeChunkFrom sb n (start % maxChunks + 1) else some (start % maxChunks) := by
  have heq : (if start = maxChunks then 0 else start) = start % maxChunks := by
    split
    · next hs => rw [hs, Nat.mod_self]
    · exact (Nat.mod_eq_of_lt (by omega)).symm
  rw [← heq]
  rfl

theorem freeChunkFrom_some {n start chunk : ℕ} (hstart : start ≤ maxChunks)
    (h : freeChunkFrom sb n start = some chunk) :
    sb.allocmap chunk = false ∧ chunk < maxChunks := by
  induction n generalizing start with
  | zero => cases h
  | succ n ih =>
      have hlt : start % maxChunks < maxChunks := Nat.mod_lt _ (Nat.zero_lt_succ _)
      rw [freeChunkFrom_succ hstart] at h
      by_cases halloc : sb.allocmap (start % maxChunks) = true
      · rw [if_pos halloc] at h
        exact ih hlt h
      · rw [if_neg halloc, Option.some.injEq] at h
        exact h ▸ ⟨Bool.not_eq_true _ ▸ halloc, hlt⟩

theorem freeChunkFrom_none {n start : ℕ} (hstart : start ≤ maxChunks)
    (h : freeChunkFrom sb n start = none) :
    ∀ i < n, sb.allocmap ((start + i) % maxChunks) = true := by
  induction n generalizing start with
  | zero => exact fun i hi => absurd hi (Nat.not_lt_zero i)
  | succ n ih =>
      have hlt : start % maxChunks < maxChunks := Nat.mod_lt _ (Nat.zero_lt_succ _)
      rw [freeChunkFrom_succ hstart] at h
      by_cases halloc : sb.allocmap (start % maxChunks) = true
      · rw [if_pos halloc] at h
        intro i hi
        cases i with
        | zero => exact halloc
        | succ i =>
            have hrest := @ih (start % maxChunks + 1) hlt h i (Nat.lt_of_succ_lt_succ hi)
            rwa [Nat.add_assoc, Nat.mod_add_mod, Nat.add_comm 1 i] at hrest
      · rw [if_neg halloc] at h
        cases h

/-- There is a free chunk while there are fewer elements than chunks. -/
theorem newChunk_spec (h : Store sb) (hlen : sb.elements.length < maxChunks) (data : ℕ) :
    ∃ chunk, newChunk sb data = some (chunk, { sb with
      allocmap := Function.update sb.allocmap chunk true
      snapdata := Function.update sb.snapdata chunk data
      nextchunk := chunk + 1 }) ∧ sb.allocmap chunk = false ∧ chunk < maxChunks := by
  cases hfree : freeChunkFrom sb maxChunks sb.nextchunk with
  | some chunk =>
      refine ⟨chunk, ?_, freeChunkFrom_some h.next hfree⟩
      rw [newChunk, hfree]
      rfl
  | none =>
      have hall : Finset.range maxChunks ⊆ (sb.elements.map Element.chunk).toFinset := by
        intro c hc
        rw [Finset.mem_range] at hc
        rw [List.mem_toFinset, ← h.alloc]
        have hnone := freeChunkFrom_none h.next hfree
          ((c + maxChunks - sb.nextchunk % maxChunks) % maxChunks) (Nat.mod_lt _ (by decide))
        have hmod : sb.nextchunk % maxChunks < maxChunks := Nat.mod_lt _ (by decide)
        have heq : (sb.nextchunk + (c + maxChunks - sb.nextchunk % maxChunks) % maxChunks) %
            maxChunks = c := by
          rw [Nat.add_mod_mod, ← Nat.mod_add_mod, show sb.nextchunk % maxChunks +
            (c + maxChunks - sb.nextchunk % maxChunks) = c + maxChunks by omega, Nat.add_mod_right,
            Nat.mod_eq_of_lt hc]
        rwa [heq] at hnone
      have hle := Finset.card_le_card hall
      have hlist := List.toFinset_card_le (sb.elements.map Element.chunk)
      rw [Finset.card_range] at hle
      rw [List.length_map] at hlist
      omega

/-! ## Elements -/

/-- The state with other elements and chunks. -/
def Sb.stored (sb : Sb) (elements : List Element) (snapdata : ℕ → ℕ) (allocmap : ℕ → Bool)
    (nextchunk orgdata : ℕ) : Sb :=
  { sb with
    elements := elements
    snapdata := snapdata
    allocmap := allocmap
    nextchunk := nextchunk
    orgdata := orgdata }

theorem Tidy.stored {es : List Element} {snapdata : ℕ → ℕ} {allocmap : ℕ → Bool}
    {nextchunk orgdata : ℕ} (h : Tidy sb) (hnodup : (es.map Element.label).Nodup)
    (hplace : ∀ v ∈ es.map Element.label, v ≠ 0 ∧ sb.mem v)
    (hheirs : ∀ v ∈ es.map Element.label, isGhost sb v = true →
      ∃ w, Heir sb sb.mem (es.map Element.label) v w)
    (hstore : Store (sb.stored es snapdata allocmap nextchunk orgdata)) :
    Tidy (sb.stored es snapdata allocmap nextchunk orgdata) := by
  refine ⟨h.shape.congr rfl rfl rfl rfl rfl rfl fun _ => ⟨rfl, rfl, id, id⟩, h.order, h.active,
    h.clear, h.origin, h.ghosts, h.free, hnodup, hplace, hheirs, hstore⟩

/-- What a snapshot reads after its own value has changed. -/
theorem reads_write (hd : sb.distinct) (hv : sb.snapshot v tag) (hsnap : sb'.snapshot = sb.snapshot)
    (hself : sb'.value v = data)
    (hrest : ∀ w, sb.mem w → isGhost sb w = false → w ≠ v → sb'.value w = sb.value w) (t x : ℕ) :
    sb'.reads t x ↔ t = tag ∧ x = data ∨ t ≠ tag ∧ sb.reads t x := by
  rw [Sb.reads, hsnap]
  constructor
  · rintro ⟨w, hw, rfl⟩
    by_cases ht : t = tag
    · subst ht
      rw [hd w v t hw hv]
      exact Or.inl ⟨rfl, hself⟩
    · have hwv : w ≠ v := by
        rintro rfl
        exact ht (hw.2.2.2.symm.trans hv.2.2.2)
      exact Or.inr ⟨ht, w, hw, (hrest w hw.1 hw.2.2.1 hwv).symm⟩
  · rintro (⟨rfl, rfl⟩ | ⟨ht, w, hw, rfl⟩)
    · exact ⟨v, hv, hself⟩
    · have hwv : w ≠ v := by
        rintro rfl
        exact ht (hw.2.2.2.symm.trans hv.2.2.2)
      exact ⟨w, hw, hrest w hw.1 hw.2.2.1 hwv⟩

/-- The first present or visible version up from `v`. -/
theorem ghostAncestor_spec (t : Tree 0 sb.mem (getParent sb) sb.ordmap) {s : Sb} {labels : List ℕ}
    (hparent : getParent s = getParent sb) (hghost : isGhost s = isGhost sb)
    (hflag : ∀ u, isPresent s u = true ↔ u ∈ labels) (horigin : isGhost sb 0 = false)
    {fuel : ℕ} (hfuel : sb.ordmap v < fuel) (hv : sb.mem v) :
    ∃ a, ghostAncestor s fuel v = some a ∧ sb.mem a ∧ (a ∈ labels ∨ isGhost sb a = false) ∧
      (v = a ∨ Inherits 0 (getParent sb) (· ∈ labels) a v) ∧
      ∀ b ∈ labels, v = b ∨ Inherits 0 (getParent sb) (· ∈ labels) b v → b ≠ a →
        Inherits 0 (getParent sb) (· ∈ labels) b a := by
  induction fuel generalizing v with
  | zero => cases hfuel
  | succ fuel ih =>
      rw [ghostAncestor, hghost, hparent]
      by_cases hcond : (!isPresent s v && isGhost sb v) = true
      · rw [if_pos hcond]
        rw [Bool.and_eq_true, Bool.not_eq_true'] at hcond
        have hl : v ∉ labels := fun hin => by
          rw [(hflag v).mpr hin] at hcond
          cases hcond.1
        have hv0 : v ≠ 0 := by
          rintro rfl
          rw [horigin] at hcond
          cases hcond.2
        obtain ⟨hp, hd⟩ := t.up v hv hv0
        obtain ⟨a, ha, ham, hstop, hup, huniq⟩ := ih (by omega) hp
        refine ⟨a, ha, ham, hstop, Or.inr ?_, fun b hb hin hne => huniq b hb ?_ hne⟩
        · rcases hup with heq | hin
          · exact .child hv0 hl heq
          · exact .step hv0 hl hin
        · rcases hin with rfl | hin
          · exact absurd hb hl
          · exact ((inherits_iff hv0).mp hin).2
      · rw [if_neg hcond]
        refine ⟨v, rfl, hv, ?_, Or.inl rfl, fun b _ hin hne => hin.resolve_left (Ne.symm hne)⟩
        by_cases hl : v ∈ labels
        · exact Or.inl hl
        · refine Or.inr ?_
          by_contra hg
          refine hcond ?_
          rw [Bool.and_eq_true, Bool.not_eq_true']
          exact ⟨Bool.eq_false_iff.mpr (mt (hflag v).mp hl), Bool.eq_true_of_not_eq_false hg⟩

theorem Heir.label_leaf {mem : ℕ → Prop} {depth : ℕ → ℕ} (h : Shape sb mem depth)
    {labels labels' : List ℕ} (hleaf : sb.kids v = [])
    (hlabel : ∀ u, u ∈ labels' → u = v ∨ u ∈ labels) (hwv : w ≠ v)
    (hw : Heir sb mem labels a w) : Heir sb mem labels' a w := by
  refine ⟨hw.1, hw.2.1, hw.2.2.label_leaf h.tree (fun u hu hu0 hp => ?_) hlabel hw.1 hwv⟩
  have hin := (h.kids.mem_iff v u).mpr ⟨hu, hu0, hp⟩
  rw [hleaf] at hin
  cases hin

/-! ## A new element -/

section
variable {chunk orgdata : ℕ} {snapdata : ℕ → ℕ}

theorem add_labels :
    (sb.elements ++ [Element.mk v chunk]).map Element.label = sb.labels ++ [v] := by
  rw [List.map_append]
  rfl

theorem Tidy.add (h : Tidy sb) (hv : sb.mem v) (hv0 : v ≠ 0) (hl : v ∉ sb.labels)
    (hfree : sb.allocmap chunk = false) (hlt : chunk < maxChunks)
    (hheirs : ∀ u, u ∈ sb.labels ∨ u = v → isGhost sb u = true →
      ∃ w, Heir sb sb.mem (sb.labels ++ [v]) u w) :
    Tidy (sb.stored (sb.elements ++ [Element.mk v chunk]) snapdata
      (Function.update sb.allocmap chunk true) (chunk + 1) orgdata) := by
  have hmem : ∀ u, u ∈ sb.labels ++ [v] ↔ u ∈ sb.labels ∨ u = v := fun u => by
    rw [List.mem_append, List.mem_singleton]
  have hchunk : chunk ∉ sb.elements.map Element.chunk := fun hin => by
    rw [(h.store.alloc chunk).mpr hin] at hfree
    cases hfree
  have hchunks : (sb.elements ++ [Element.mk v chunk]).map Element.chunk =
      sb.elements.map Element.chunk ++ [chunk] := by
    rw [List.map_append]
    rfl
  refine h.stored ?_ ?_ ?_ ⟨?_, fun c => ?_, fun c hc => ?_, hlt⟩
  · rw [add_labels]
    exact h.nodup.append (List.nodup_singleton v) (List.disjoint_singleton.mpr hl)
  · rw [add_labels]
    intro u hu
    rcases (hmem u).mp hu with hu | rfl
    · exact h.place u hu
    · exact ⟨hv0, hv⟩
  · rw [add_labels]
    exact fun u hu hg => hheirs u ((hmem u).mp hu) hg
  · change ((sb.elements ++ [Element.mk v chunk]).map Element.chunk).Nodup
    rw [hchunks]
    exact h.store.nodup.append (List.nodup_singleton chunk) (List.disjoint_singleton.mpr hchunk)
  · change Function.update sb.allocmap chunk true c = true ↔
      c ∈ (sb.elements ++ [Element.mk v chunk]).map Element.chunk
    rw [hchunks, List.mem_append, List.mem_singleton, ← h.store.alloc]
    by_cases hc : c = chunk
    · rw [hc, Function.update_self]
      exact ⟨fun _ => Or.inr rfl, fun _ => rfl⟩
    · rw [Function.update_of_ne hc, or_iff_left hc]
  · change Function.update sb.allocmap chunk true c = true at hc
    by_cases hcc : c = chunk
    · exact hcc ▸ hlt
    · rw [Function.update_of_ne hcc] at hc
      exact h.store.lt c hc

theorem add_datum (h : Tidy sb) (hl : v ∉ sb.labels) (hfree : sb.allocmap chunk = false)
    (hdata : ∀ c, c ≠ chunk → snapdata c = sb.snapdata c) (allocmap : ℕ → Bool) (nextchunk u : ℕ) :
    (sb.stored (sb.elements ++ [Element.mk v chunk]) snapdata allocmap nextchunk orgdata).datum u =
      if u = v then some (snapdata chunk) else sb.datum u := by
  change ((sb.elements ++ [Element.mk v chunk]).find? fun e => e.label = u).map
    (fun e => snapdata e.chunk) = _
  rw [List.find?_append]
  by_cases hu : u = v
  · subst hu
    rw [if_pos rfl, show sb.elements.find? (fun e => e.label = u) = none from
      findElement_none.mpr hl, Option.none_or, List.find?_singleton, if_pos (decide_eq_true rfl)]
    rfl
  · rw [if_neg hu, List.find?_cons_of_neg (by simpa using Ne.symm hu), List.find?_nil,
      Option.or_none, Sb.datum, findElement]
    cases hf : sb.elements.find? fun e => e.label = u with
    | none => rfl
    | some e =>
        have he := List.mem_of_find?_eq_some hf
        have hne : e.chunk ≠ chunk := fun heq => by
          rw [← heq, (h.store.alloc e.chunk).mpr (List.mem_map.mpr ⟨e, he, rfl⟩)] at hfree
          cases hfree
        rw [Option.map_some, Option.map_some, hdata _ hne]

end

theorem value_own (h : Tidy sb) (hparent : getParent sb' = getParent sb)
    (hord : sb'.ordmap = sb.ordmap) (horg : sb'.orgdata = sb.orgdata) (hv : sb.mem v) (hv0 : v ≠ 0)
    (hdatum : ∀ u, sb'.datum u = if u = v then some data else sb.datum u)
    (hkids : ∀ c ∈ sb.kids v, c ∈ sb.labels) :
    sb'.value v = data ∧ ∀ w, sb.mem w → w ≠ v → sb'.value w = sb.value w := by
  constructor
  · rw [Sb.value, hparent, hord, value_step h.shape.tree hv hv0, hdatum, if_pos rfl,
      Option.getD_some]
  · intro w hw hwv
    rw [Sb.value, Sb.value, hparent, hord, horg]
    refine value_congr h.shape.tree hw (· ≠ v) (fun _ => rfl) (fun u _ _ hu => ?_)
      (fun u hu hu0 _ hnone hp => ?_) hwv
    · rw [hdatum, if_neg hu]
    · exact datum_none.mp hnone (hkids u ((h.shape.kids.mem_iff v u).mpr ⟨hu, hu0, hp⟩))

/-! ## An element rewritten -/

section
variable {e : Element}

theorem Tidy.rewrite (h : Tidy sb) (snapdata : ℕ → ℕ) :
    Tidy (sb.stored sb.elements snapdata sb.allocmap sb.nextchunk sb.orgdata) :=
  h.stored h.nodup h.place h.heirs ⟨h.store.nodup, h.store.alloc, h.store.lt, h.store.next⟩

theorem rewrite_data (h : Tidy sb) (he : e ∈ sb.elements) {e' : Element} (he' : e' ∈ sb.elements)
    (hne : e'.label ≠ e.label) (data : ℕ) :
    Function.update sb.snapdata e.chunk data e'.chunk = sb.snapdata e'.chunk := by
  refine Function.update_of_ne (fun heq => hne ?_) _ _
  rw [List.inj_on_of_nodup_map h.store.nodup he' he heq]

theorem rewrite_datum (h : Tidy sb) (he : e ∈ sb.elements) (u : ℕ) :
    (sb.stored sb.elements (Function.update sb.snapdata e.chunk data) sb.allocmap sb.nextchunk
      sb.orgdata).datum u = if u = e.label then some data else sb.datum u := by
  change (findElement sb u).map
    (fun e' => Function.update sb.snapdata e.chunk data e'.chunk) = _
  by_cases hu : u = e.label
  · rw [if_pos hu, hu, findElement_eq h.nodup he, Option.map_some, Function.update_self]
  · rw [if_neg hu, Sb.datum]
    cases hf : findElement sb u with
    | none => rfl
    | some e' =>
        obtain ⟨he', rfl⟩ := findElement_some hf
        rw [Option.map_some, Option.map_some, rewrite_data h he he' hu]

/-! ## An element relabelled -/

/-- The elements when `e` gets the label `v`. -/
def relabel (es : List Element) (e : Element) (v : ℕ) : List Element :=
  es.map fun other => if other = e then { other with label := v } else other

theorem relabel_chunks (es : List Element) :
    (relabel es e v).map Element.chunk = es.map Element.chunk := by
  rw [relabel, List.map_map]
  refine List.map_congr_left fun other _ => ?_
  rw [Function.comp_apply]
  split
  · rfl
  · rfl

theorem mem_relabel {e' : Element} : e' ∈ relabel sb.elements e v ↔
    (e ∈ sb.elements ∧ e' = ⟨v, e.chunk⟩) ∨ (e' ∈ sb.elements ∧ e' ≠ e) := by
  rw [relabel, List.mem_map]
  constructor
  · rintro ⟨other, hother, rfl⟩
    by_cases heq : other = e
    · rw [if_pos heq, heq]
      exact Or.inl ⟨heq ▸ hother, rfl⟩
    · rw [if_neg heq]
      exact Or.inr ⟨hother, heq⟩
  · rintro (⟨he, rfl⟩ | ⟨he', hne⟩)
    · exact ⟨e, he, if_pos rfl⟩
    · exact ⟨e', he', if_neg hne⟩

theorem relabel_labels (h : Tidy sb) (he : e ∈ sb.elements) {u : ℕ} :
    u ∈ (relabel sb.elements e v).map Element.label ↔ u = v ∨ u ≠ e.label ∧ u ∈ sb.labels := by
  rw [List.mem_map]
  constructor
  · rintro ⟨e', he', rfl⟩
    rcases mem_relabel.mp he' with ⟨-, rfl⟩ | ⟨he', hne⟩
    · exact Or.inl rfl
    · refine Or.inr ⟨fun heq => hne (List.inj_on_of_nodup_map h.nodup he' he heq), ?_⟩
      exact mem_labels.mpr ⟨e', he', rfl⟩
  · rintro (rfl | ⟨hne, hu⟩)
    · exact ⟨_, mem_relabel.mpr (Or.inl ⟨he, rfl⟩), rfl⟩
    · obtain ⟨e', he', rfl⟩ := mem_labels.mp hu
      exact ⟨e', mem_relabel.mpr (Or.inr ⟨he', fun heq => hne (heq ▸ rfl)⟩), rfl⟩

theorem relabel_nodup (h : Tidy sb) (hl : v ∉ sb.labels) :
    ((relabel sb.elements e v).map Element.label).Nodup := by
  rw [relabel, List.map_map]
  refine (List.Nodup.of_map _ h.nodup).map_on fun x hx y hy hxy => ?_
  have hxl : x.label ∈ sb.labels := mem_labels.mpr ⟨x, hx, rfl⟩
  have hyl : y.label ∈ sb.labels := mem_labels.mpr ⟨y, hy, rfl⟩
  rw [Function.comp_apply, Function.comp_apply] at hxy
  by_cases hxe : x = e
  · by_cases hye : y = e
    · rw [hxe, hye]
    · rw [if_pos hxe, if_neg hye] at hxy
      exact absurd (show v = y.label from hxy) fun heq => hl (heq ▸ hyl)
  · by_cases hye : y = e
    · rw [if_neg hxe, if_pos hye] at hxy
      exact absurd (show x.label = v from hxy) fun heq => hl (heq ▸ hxl)
    · rw [if_neg hxe, if_neg hye] at hxy
      exact List.inj_on_of_nodup_map h.nodup hx hy hxy

/-- The only heir of a ghost takes its element over. -/
theorem Tidy.relabel (h : Tidy sb) (he : e ∈ sb.elements) (hv : sb.mem v) (hv0 : v ≠ 0)
    (hl : v ∉ sb.labels) (hg : isGhost sb v = false) (hleaf : sb.kids v = [])
    (hin : Inherits 0 (getParent sb) (· ∈ sb.labels) e.label v) (snapdata : ℕ → ℕ) :
    Tidy (sb.stored (relabel sb.elements e v) snapdata sb.allocmap sb.nextchunk sb.orgdata) := by
  refine h.stored (relabel_nodup h hl) (fun u hu => ?_) (fun u hu hgu => ?_) ⟨?_, fun c => ?_,
    h.store.lt, h.store.next⟩
  · rcases (relabel_labels h he).mp hu with rfl | ⟨-, hu⟩
    · exact ⟨hv0, hv⟩
    · exact h.place u hu
  · rcases (relabel_labels h he).mp hu with rfl | ⟨hne, hul⟩
    · rw [hg] at hgu
      cases hgu
    · obtain ⟨w, hw⟩ := h.heirs u hul hgu
      refine ⟨w, hw.label_leaf h.shape hleaf
        (fun x hx => ((relabel_labels h he).mp hx).imp_right And.right) ?_⟩
      rintro rfl
      have hle : e.label ∈ sb.labels := mem_labels.mpr ⟨e, he, rfl⟩
      exact hne (inherits_unique hul hle hw.2.2 hin)
  · change ((Version.relabel sb.elements e v).map Element.chunk).Nodup
    rw [relabel_chunks]
    exact h.store.nodup
  · change _ ↔ c ∈ (Version.relabel sb.elements e v).map Element.chunk
    rw [relabel_chunks]
    exact h.store.alloc c

theorem relabel_value (h : Tidy sb) (he : e ∈ sb.elements) (hv : sb.mem v) (hv0 : v ≠ 0)
    (hl : v ∉ sb.labels) (hleaf : sb.kids v = []) (hg : isGhost sb e.label = true)
    (honly : ∀ w, Heir sb sb.mem sb.labels e.label w → w = v) :
    (sb.stored (relabel sb.elements e v) (Function.update sb.snapdata e.chunk data) sb.allocmap
      sb.nextchunk sb.orgdata).value v = data ∧
    ∀ w, sb.mem w → isGhost sb w = false → w ≠ v →
      (sb.stored (relabel sb.elements e v) (Function.update sb.snapdata e.chunk data) sb.allocmap
        sb.nextchunk sb.orgdata).value w = sb.value w := by
  set sb' := sb.stored (relabel sb.elements e v) (Function.update sb.snapdata e.chunk data)
    sb.allocmap sb.nextchunk sb.orgdata with hsb'
  have hnodup : sb'.labels.Nodup := relabel_nodup h hl
  have hlabels : ∀ u, u ∈ sb'.labels ↔ u = v ∨ u ≠ e.label ∧ u ∈ sb.labels := fun u =>
    relabel_labels h he
  have hself : sb'.datum v = some data := by
    have hin : (⟨v, e.chunk⟩ : Element) ∈ sb'.elements := mem_relabel.mpr (Or.inl ⟨he, rfl⟩)
    rw [show v = (⟨v, e.chunk⟩ : Element).label from rfl, datum_eq hnodup hin]
    exact congrArg some (Function.update_self _ _ _)
  have hrest : ∀ u, u ≠ v → u ≠ e.label → sb'.datum u = sb.datum u := by
    intro u huv hue
    by_cases hu : u ∈ sb.labels
    · obtain ⟨e', he', rfl⟩ := mem_labels.mp hu
      have hin : e' ∈ sb'.elements :=
        mem_relabel.mpr (Or.inr ⟨he', fun heq => hue (heq ▸ rfl)⟩)
      rw [datum_eq hnodup hin, datum_eq h.nodup he']
      exact congrArg some (rewrite_data h he he' hue data)
    · rw [datum_none.mpr hu, datum_none, hlabels]
      rintro (heq | ⟨-, hin⟩)
      · exact huv heq
      · exact hu hin
  constructor
  · change Rooted.value (getParent sb) sb.ordmap sb'.datum sb.orgdata v = data
    rw [value_step h.shape.tree hv hv0, hself, Option.getD_some]
  · intro w hw hwg hwv
    change Rooted.value (getParent sb) sb.ordmap sb'.datum sb.orgdata w = _
    refine value_congr h.shape.tree hw (fun u => u ≠ v ∧ u ≠ e.label ∧
      ¬ Inherits 0 (getParent sb) (· ∈ sb.labels) e.label u) (fun _ => rfl)
      (fun u _ _ hu => hrest u hu.1 hu.2.1) (fun u hu hu0 hsame hnone => ?_) ⟨hwv, ?_, ?_⟩
    · have hun := datum_none.mp hnone
      refine ⟨fun hp => ?_, fun hp => hsame.2.2 (.child hu0 hun hp),
        fun hin => hsame.2.2 (.step hu0 hun hin)⟩
      have hin := (h.shape.kids.mem_iff v u).mpr ⟨hu, hu0, hp⟩
      rw [hleaf] at hin
      cases hin
    · rintro rfl
      rw [hg] at hwg
      cases hwg
    · exact fun hin => hwv (honly w ⟨hw, hwg, hin⟩)

end

/-! ## `snapshot_write` -/

/-- The ghosts keep heirs when a leaf gets an element of its own, unless it was the only heir of
the ghost found. -/
theorem heirs_new (h : Tidy sb) (hv : sb.mem v) (hleaf : sb.kids v = [])
    (hin : Inherits 0 (getParent sb) (· ∈ sb.labels) a v) (ham : sb.mem a)
    (hstop : a ∈ sb.labels ∨ isGhost sb a = false)
    (huniq : ∀ b ∈ sb.labels, Inherits 0 (getParent sb) (· ∈ sb.labels) b v → b ≠ a →
      Inherits 0 (getParent sb) (· ∈ sb.labels) b a)
    (hmore : isGhost sb a = true → ∃ w, w ≠ v ∧ Heir sb sb.mem sb.labels a w) {u : ℕ}
    (hu : u ∈ sb.labels) (hg : isGhost sb u = true) :
    ∃ w, Heir sb sb.mem (sb.labels ++ [v]) u w := by
  have hex : ∃ w, w ≠ v ∧ Heir sb sb.mem sb.labels u w := by
    obtain ⟨w, hw⟩ := h.heirs u hu hg
    by_cases hwv : w = v
    · subst hwv
      by_cases hua : u = a
      · subst hua
        exact hmore hg
      · have hina := huniq u hu hw.2.2 hua
        refine ⟨a, fun heq => ?_, ham, hstop.resolve_left hina.unlabelled, hina⟩
        have := hin.depth_lt h.shape.tree hv
        rw [heq] at this
        omega
    · exact ⟨w, hwv, hw⟩
  obtain ⟨w, hwv, hw⟩ := hex
  refine ⟨w, hw.label_leaf h.shape hleaf (fun x hx => ?_) hwv⟩
  rw [List.mem_append, List.mem_singleton] at hx
  exact hx.symm

theorem newElement_spec (h : Tidy sb) (v data : ℕ) : ∃ chunk, sb.allocmap chunk = false ∧
    chunk < maxChunks ∧ ∀ next : ℕ → Sb → Option Sb,
      ((newChunk sb data).bind fun r => (addElement r.2 v r.1).bind (next r.1)) =
        next chunk (sb.stored (sb.elements ++ [Element.mk v chunk])
          (Function.update sb.snapdata chunk data) (Function.update sb.allocmap chunk true)
          (chunk + 1) sb.orgdata) := by
  have hlen : sb.elements.length < maxVersions := h.elements_lt.trans_le h.members_le
  obtain ⟨chunk, hchunk, hfree, hlt⟩ := newChunk_spec h.store hlen data
  refine ⟨chunk, hfree, hlt, fun next => ?_⟩
  rw [hchunk]
  exact congrArg (fun o => Option.bind o (next chunk)) (if_pos hlen)

/-- A leaf without a label gets an element of its own, or that of a ghost whose only heir it is. -/
theorem writeLeaf_spec (h : Tidy sb) (hd : sb.distinct) (hv : sb.snapshot v tag)
    (hleaf : sb.childCount v = 0) (hl : v ∉ sb.labels) (data : ℕ) :
    ∃ sb', writeLeaf sb v data = some sb' ∧ Tidy sb' ∧ sb'.distinct ∧ sb'.orgdata = sb.orgdata ∧
      ∀ t x, sb'.reads t x ↔ t = tag ∧ x = data ∨ t ≠ tag ∧ sb.reads t x := by
  obtain ⟨hm, hv0, hg, -⟩ := id hv
  have hkids : sb.kids v = [] := List.length_eq_zero_iff.mp (by rw [kids_length, hleaf])
  have hmark := setPresent_true h.clear
  have hclear : setPresent (sb.marked (fun u => decide (u ∈ sb.labels)) sb.allocmap) false = sb :=
    setPresent_false h.clear fun u hu => of_decide_eq_true hu
  obtain ⟨hpm, -⟩ := h.shape.tree.up v hm hv0
  obtain ⟨a, ha, ham, hstop, hup, huniq⟩ := @ghostAncestor_spec sb (getParent sb v) h.shape.tree
    (sb.marked (fun u => decide (u ∈ sb.labels)) sb.allocmap) sb.labels rfl rfl
    (fun u => decide_eq_true_iff) h.origin maxVersions (h.shape.depth_lt hpm) hpm
  have hin : Inherits 0 (getParent sb) (· ∈ sb.labels) a v := by
    rcases hup with heq | hin
    · exact .child hv0 hl heq
    · exact .step hv0 hl hin
  obtain ⟨m, hcount, -, hone, hone'⟩ := @countHeirs_spec sb sb.mem sb.ordmap a h.shape sb.labels
    sb.allocmap ham
  have hgive : isGhost sb a = true → m = 1 → ∃ sb', ((findElement sb a).bind fun e =>
      some (sb.stored (relabel sb.elements e v) (Function.update sb.snapdata e.chunk data)
        sb.allocmap sb.nextchunk sb.orgdata)) = some sb' ∧ Tidy sb' ∧ sb'.distinct ∧
      sb'.orgdata = sb.orgdata ∧
      ∀ t x, sb'.reads t x ↔ t = tag ∧ x = data ∨ t ≠ tag ∧ sb.reads t x := by
    intro hga hm1
    have hal : a ∈ sb.labels := hstop.resolve_right fun hf => by
      rw [hga] at hf
      cases hf
    obtain ⟨e, he⟩ := findElement_isSome.mpr hal
    obtain ⟨hemem, rfl⟩ := findElement_some he
    obtain ⟨hself, hrest⟩ := @relabel_value sb v data e h hemem hm hv0 hl hkids hga
      fun w hw => hone hm1 w v hw ⟨hm, hg, hin⟩
    refine ⟨_, by rw [he]; rfl, h.relabel hemem hm hv0 hl hg hkids hin _, hd, rfl, ?_⟩
    exact reads_write hd hv rfl hself hrest
  have hnew : ¬ (isGhost sb a = true ∧ m = 1) → ∃ sb', ((newChunk sb data).bind fun r =>
      (addElement r.2 v r.1).bind fun sb =>
        some { sb with snapdata := Function.update sb.snapdata r.1 data }) = some sb' ∧ Tidy sb' ∧
      sb'.distinct ∧ sb'.orgdata = sb.orgdata ∧
      ∀ t x, sb'.reads t x ↔ t = tag ∧ x = data ∨ t ≠ tag ∧ sb.reads t x := by
    intro hnot
    obtain ⟨chunk, hfree, hlt, hrun⟩ := newElement_spec h v data
    rw [hrun fun chunk sb => some { sb with snapdata := Function.update sb.snapdata chunk data }]
    have hheirs : ∀ u, u ∈ sb.labels ∨ u = v → isGhost sb u = true →
        ∃ w, Heir sb sb.mem (sb.labels ++ [v]) u w := by
      intro u hu hgu
      have hul : u ∈ sb.labels := hu.resolve_right fun heq => by
        rw [heq, hg] at hgu
        cases hgu
      refine heirs_new h hm hkids hin ham hstop (fun b hb hbv hne => huniq b hb ?_ hne)
        (fun hga => ?_) hul hgu
      · exact ((inherits_iff hv0).mp hbv).2
      · by_contra hno
        refine hnot ⟨hga, hone' ⟨v, hm, hg, hin⟩ fun w w' hw hw' => ?_⟩
        have hall : ∀ x, Heir sb sb.mem sb.labels a x → x = v := fun x hx => by
          by_contra hxv
          exact hno ⟨x, hxv, hx⟩
        rw [hall w hw, hall w' hw']
    set snapdata := Function.update (Function.update sb.snapdata chunk data) chunk data with hsnap
    set sb' := sb.stored (sb.elements ++ [Element.mk v chunk]) snapdata
      (Function.update sb.allocmap chunk true) (chunk + 1) sb.orgdata with hsb'
    have hdatum : ∀ u, sb'.datum u = if u = v then some data else sb.datum u := by
      intro u
      rw [hsb', add_datum h hl hfree fun c hc => ?_, hsnap, Function.update_self]
      rw [hsnap, Function.update_of_ne hc, Function.update_of_ne hc]
    obtain ⟨hself, hrest⟩ := @value_own sb sb' v data h rfl rfl rfl hm hv0 hdatum fun c hc => by
      rw [hkids] at hc
      cases hc
    exact ⟨sb', rfl, h.add hm hv0 hl hfree hlt hheirs, hd, rfl,
      reads_write hd hv rfl hself fun w hw _ => hrest w hw⟩
  have hparent : getParent (sb.marked (fun u => decide (u ∈ sb.labels)) sb.allocmap) v =
    getParent sb v := rfl
  have hghost : isGhost (sb.marked (fun u => decide (u ∈ sb.labels)) sb.allocmap) a =
    isGhost sb a := rfl
  rw [writeLeaf]
  simp only [hmark, hclear, hparent, hghost, ha, Option.bind_eq_bind, Option.bind_some]
  by_cases hga : isGhost sb a = true
  · rw [if_pos hga, hcount]
    by_cases hm1 : m = 1
    · subst hm1
      exact hgive hga rfl
    · simp only [Option.map_eq_map, Option.map_some, Option.bind_some, beq_iff_eq, if_neg hm1]
      exact hnew fun hand => hm1 hand.2
  · rw [if_neg hga]
    exact hnew fun hand => hga hand.1

/-- A write changes what its snapshot reads. -/
theorem snapshotWrite_spec (h : Tidy sb) (hd : sb.distinct) (hv : sb.snapshot v tag)
    (hroom : sb.snapshots.card ≤ 128) (data : ℕ) : ∃ sb', snapshotWrite sb tag data = some sb' ∧
      Tidy sb' ∧ sb'.distinct ∧ sb'.orgdata = sb.orgdata ∧
      ∀ t x, sb'.reads t x ↔ t = tag ∧ x = data ∨ t ≠ tag ∧ sb.reads t x := by
  obtain ⟨near, table, nearmap, hcount, f, h₁, hnear⟩ := countNear_spec h hv.1 hv.2.1
  set sb₁ := sb.cached table sb.pathmap nearmap with hsb₁
  have hd₁ : sb₁.distinct := f.distinct hd
  have hsnap₁ : sb₁.snapshot = sb.snapshot := f.snapshot
  have hv₁ : sb₁.snapshot v tag := hsnap₁ ▸ hv
  have hreads₁ : sb₁.reads = sb.reads := f.reads
  rw [snapshotWrite, h.findTag hd hv]
  simp only [Option.bind_eq_bind, Option.bind_some, hcount]
  by_cases hall : near = sb₁.childCount v + 1
  · -- the version and all its children have elements
    rw [if_pos hall]
    obtain ⟨hl, hkids⟩ := hnear.mp hall
    obtain ⟨e, he⟩ := findElement_isSome.mpr (show v ∈ sb₁.labels from hl)
    obtain ⟨hemem, hel⟩ := findElement_some he
    rw [he]
    set sb' := sb₁.stored sb₁.elements (Function.update sb₁.snapdata e.chunk data) sb₁.allocmap
      sb₁.nextchunk sb₁.orgdata with hsb'
    have hsnap' : sb'.snapshot = sb₁.snapshot := rfl
    obtain ⟨hself, hrest⟩ := @value_own sb₁ sb' v data h₁ rfl rfl rfl hv₁.1 hv₁.2.1
      (fun u => hel ▸ rewrite_datum h₁ hemem u) hkids
    refine ⟨sb', rfl, h₁.rewrite _, hd₁, rfl, fun t x => ?_⟩
    rw [← hreads₁]
    exact reads_write hd₁ hv₁ hsnap' hself (fun w hw _ => hrest w hw) t x
  · rw [if_neg hall]
    by_cases hzero : sb₁.childCount v = 0
    · rw [if_neg (not_not.mpr hzero)]
      have hl : v ∉ sb₁.labels := fun hl => by
        refine hall (hnear.mpr ⟨hl, fun c hc => ?_⟩)
        have hnil : sb.kids v = [] :=
          List.length_eq_zero_iff.mp ((kids_length sb v).trans hzero)
        rw [hnil] at hc
        cases hc
      obtain ⟨sb', hrun, h', hd', horg, hreads⟩ := writeLeaf_spec h₁ hd₁ hv₁ hzero hl data
      refine ⟨sb', hrun, h', hd', horg, fun t x => ?_⟩
      rw [hreads, hreads₁]
    · rw [if_pos hzero]
      have hroom₁ : sb₁.snapshots.card ≤ 128 := by
        refine le_of_eq_of_le (congrArg Finset.card (Finset.ext fun u => ?_)) hroom
        rw [mem_snapshots, mem_snapshots, hsb₁, f.mem, f.ghost]
      obtain ⟨c, sb₂, himplicit, h₂, hd₂, horg₂, hreads₂, hc, hl, hleaf⟩ :=
        implicitVersion_spec h₁ hd₁ hv₁ hzero hroom₁
      obtain ⟨sb', hrun, h', hd', horg, hreads⟩ := writeLeaf_spec h₂ hd₂ hc hleaf hl data
      refine ⟨sb', ?_, h', hd', horg.trans horg₂, fun t x => ?_⟩
      · rw [himplicit]
        exact hrun
      · rw [hreads, hreads₂, hreads₁]

/-! ## `origin_write` -/

/-- A write to the origin changes what no snapshot reads. -/
theorem originWrite_spec (h : Tidy sb) (hd : sb.distinct) (data : ℕ) :
    ∃ sb', originWrite sb data = some sb' ∧ Tidy sb' ∧ sb'.distinct ∧ sb'.orgdata = data ∧
      ∀ t x, sb'.reads t x ↔ sb.reads t x := by
  have hmark := setPresent_true h.clear
  have hclear : setPresent (sb.marked (fun u => decide (u ∈ sb.labels)) sb.allocmap) false = sb :=
    setPresent_false h.clear fun u hu => of_decide_eq_true hu
  obtain ⟨m, hcount, hzero, -⟩ := @countHeirs_spec sb sb.mem sb.ordmap 0 h.shape sb.labels
    sb.allocmap h.zero_mem
  have hinherited : inherited sb 0 = some (m, sb) := by
    rw [inherited, hmark, hcount]
    exact congrArg (fun s => some (m, s)) hclear
  have hreads : ∀ sb' : Sb, sb'.snapshot = sb.snapshot →
      (∀ w, sb.mem w → w ≠ 0 → isGhost sb w = false → sb'.value w = sb.value w) →
      ∀ t x, sb'.reads t x ↔ sb.reads t x := by
    intro sb' hsnap hvalue t x
    rw [Sb.reads, hsnap]
    exact exists_congr fun w => and_congr_right fun hw => by rw [hvalue w hw.1 hw.2.1 hw.2.2.1]
  rw [originWrite, hinherited]
  simp only [Option.bind_eq_bind, Option.bind_some, Option.pure_def]
  by_cases hm : m = 0
  · rw [if_neg (not_not.mpr hm)]
    refine ⟨_, rfl, h.stored h.nodup h.place h.heirs
      ⟨h.store.nodup, h.store.alloc, h.store.lt, h.store.next⟩, hd, rfl,
      hreads (sb.stored sb.elements sb.snapdata sb.allocmap sb.nextchunk data) rfl
        fun w hw hw0 hg => ?_⟩
    refine value_congr h.shape.tree hw
      (fun u => u ≠ 0 ∧ ¬ Inherits 0 (getParent sb) (· ∈ sb.labels) 0 u)
      (fun hs => absurd rfl hs.1) (fun _ _ _ _ => rfl) (fun u hu hu0 hs hnone => ?_)
      ⟨hw0, fun hin => hzero.mp hm w ⟨hw, hg, hin⟩⟩
    have hun := datum_none.mp hnone
    exact ⟨fun hp => hs.2 (.child hu0 hun hp), fun hin => hs.2 (.step hu0 hun hin)⟩
  · rw [if_pos hm]
    obtain ⟨w, hw⟩ : ∃ w, Heir sb sb.mem sb.labels 0 w := by
      by_contra hno
      exact hm (hzero.mpr (not_exists.mp hno))
    obtain ⟨r, hroot, hkids⟩ := h.shape.getRoot hw.1 hw.2.2.ne_origin
    obtain ⟨hrm, hr0, hrp, hrd⟩ := h.shape.kid (show r ∈ sb.kids 0 by
      rw [hkids]
      exact List.mem_cons_self)
    have hthrough : r ∉ sb.labels ∧ (w = r ∨ Heir sb sb.mem sb.labels r w) := by
      obtain ⟨c, hc, hcl, hin⟩ := hw.through h.shape
      rw [hkids, List.mem_singleton] at hc
      exact hc ▸ ⟨hcl, hin⟩
    obtain ⟨hrl, hrw⟩ := hthrough
    have hkeep : ∀ u x, sb.mem u → u ≠ 0 → Heir sb sb.mem sb.labels u x →
        Heir sb sb.mem (sb.labels ++ [r]) u x := by
      intro u x hu hu0 hx
      refine ⟨hx.1, hx.2.1, hx.2.2.congr h.shape.tree hx.1 (fun y _ _ hlt hy => ?_)
        fun _ _ _ _ => rfl⟩
      rw [List.mem_append, List.mem_singleton] at hy
      refine hy.resolve_right fun heq => ?_
      have hpos := h.shape.tree.depth_pos hu hu0
      rw [heq, hrd, h.shape.tree.depth_origin] at hlt
      omega
    obtain ⟨chunk, hfree, hlt, hrun⟩ := newElement_spec h r sb.orgdata
    rw [hroot, Option.bind_some, hrun fun _ sb => some { sb with orgdata := data }]
    have hheirs : ∀ u, u ∈ sb.labels ∨ u = r → isGhost sb u = true →
        ∃ w, Heir sb sb.mem (sb.labels ++ [r]) u w := by
      rintro u (hu | rfl) hg
      · obtain ⟨x, hx⟩ := h.heirs u hu hg
        exact ⟨x, hkeep u x (h.place u hu).2 (h.place u hu).1 hx⟩
      · rcases hrw with rfl | hin
        · rw [hw.2.1] at hg
          cases hg
        · exact ⟨w, hkeep u w hrm hr0 hin⟩
    set sb' := sb.stored (sb.elements ++ [Element.mk r chunk])
      (Function.update sb.snapdata chunk sb.orgdata) (Function.update sb.allocmap chunk true)
      (chunk + 1) data with hsb'
    have hdatum : ∀ u, sb'.datum u = if u = r then some sb.orgdata else sb.datum u := by
      intro u
      rw [hsb', add_datum h hrl hfree fun c hc => Function.update_of_ne hc _ _,
        Function.update_self]
    refine ⟨sb', rfl, h.add hrm hr0 hrl hfree hlt hheirs, hd, rfl,
      hreads sb' rfl fun x hx hx0 _ => ?_⟩
    have hval : Rooted.value (getParent sb) sb.ordmap sb'.datum data x =
        if x = 0 then data else sb.value x := by
      refine value_unique h.shape.tree (fun x => if x = 0 then data else sb.value x) (if_pos rfl)
        (fun y hy hy0 => ?_) hx
      rw [if_neg hy0, hdatum]
      by_cases hyr : y = r
      · rw [if_pos hyr, Option.getD_some, hyr, Sb.value, value_step h.shape.tree hrm hr0,
          datum_none.mpr hrl, Option.getD_none, hrp, value_origin h.shape.tree]
      · have hp0 : getParent sb y ≠ 0 := fun hp => by
          have hin := (h.shape.kids.mem_iff 0 y).mpr ⟨hy, hy0, hp⟩
          rw [hkids, List.mem_singleton] at hin
          exact hyr hin
        rw [if_neg hyr, if_neg hp0]
        exact value_step h.shape.tree hy hy0
    rw [if_neg hx0] at hval
    exact hval

end

end Tux3.Version
