import Tux3.Basic

/-!
# File index leaves

The leaf operations of `dleaf.c`. A leaf has three tables: the groups, from the end of the block
down, the entries below them, also downward, and the extents from the header up. A pointer into the
groups or the entries is the number of elements from it up to the start of its table, so that
`gdict` and `edict` are zero, and a pointer into the extents is an index. Offsets are below `2 ^ 16`,
and there is one extent for an entry.
-/
namespace Tux3.Dleaf

def MAX_GROUP_ENTRIES : ℕ := 255

/-- `struct diskextent`, without the version. -/
structure Extent where
  block : ℕ
  count : ℕ
  deriving DecidableEq, Repr

/-- `struct group`: `keyhi` has 24 bits, the count 8. -/
structure Group where
  keyhi : ℕ
  count : ℕ
  deriving DecidableEq, Repr

/-- `struct entry`: `keylo` has 24 bits, the limit 8. -/
structure Entry where
  keylo : ℕ
  limit : ℕ
  deriving DecidableEq, Repr

/-- `struct dleaf` with the three tables. -/
structure Leaf where
  groups : List Group
  entries : List Entry
  table : List Extent
  free : ℕ
  used : ℕ
  deriving DecidableEq, Repr

/-- Addition to an 8 bit field. -/
def inc8 (field : ℕ) (n : ℤ) : ℕ := ((field + n) % 2 ^ 8).toNat

def incGroupCount (group : Group) (n : ℤ) : Group := { group with count := inc8 group.count n }

def setGroupCount (group : Group) (n : ℕ) : Group := { group with count := n % 2 ^ 8 }

def incEntryLimit (entry : Entry) (n : ℤ) : Entry := { entry with limit := inc8 entry.limit n }

/-- `get_index` of the two halves. -/
def getIndex (keyhi keylo : ℕ) : ℕ := keyhi * 2 ^ 24 + keylo

def Leaf.groupAt (leaf : Leaf) (group : ℕ) : Group := leaf.groups.getD (group - 1) ⟨0, 0⟩

def Leaf.entryAt (leaf : Leaf) (entry : ℕ) : Entry := leaf.entries.getD (entry - 1) ⟨0, 0⟩

def Leaf.extentAt (leaf : Leaf) (extent : ℕ) : Extent := leaf.table.getD extent ⟨0, 0⟩

section
variable (blocksize : ℕ)

/-- `dleaf_init`. -/
def dleafInit : Leaf := ⟨[], [], [], 8, blocksize⟩

def dleafFree (leaf : Leaf) : ℕ := leaf.used - leaf.free

def dleafNeed (leaf : Leaf) : ℕ := blocksize - dleafFree leaf - 8

/-- The address of a pointer into the entries. -/
def entryOffset (groups entry : ℕ) : ℕ := blocksize - 4 * (groups + entry)

/-- The pointer `leaf->used`. -/
def Leaf.ebase (leaf : Leaf) : ℕ := (blocksize - 4 * leaf.groups.length - leaf.used) / 4

/-- The pointer `leaf->free`. -/
def Leaf.exend (leaf : Leaf) : ℕ := (leaf.free - 8) / 8

/-! ## Checks -/

/-- The loop over the entries of a group in `dleaf_check`. -/
def checkEntries : ℤ → ℕ → List Entry → Bool
  | _, _, [] => true
  | keylo, limit, entry :: entries =>
      decide (keylo < entry.keylo) && decide (limit < entry.limit) &&
        checkEntries entry.keylo entry.limit entries

/-- The loop over the groups from a key on, with the entries and the extents that are left; the
numbers of extents and entries when no assertion fails. -/
def checkGroups : ℕ → List Group → List Entry → List Extent → Option (ℕ × ℕ)
  | _, [], _, _ => some (0, 0)
  | keyhi, group :: groups, entries, extents =>
      let own := entries.take group.count
      let limit := (own.getLast?.map Entry.limit).getD 0
      if keyhi ≤ group.keyhi ∧ 0 < group.count ∧ group.count ≤ MAX_GROUP_ENTRIES ∧
          group.count ≤ entries.length ∧ checkEntries (-1) 0 own = true ∧ limit ≤ extents.length ∧
          (extents.take limit).all (fun extent => extent.block ≠ 0) = true then
        (checkGroups group.keyhi groups (entries.drop group.count) (extents.drop limit)).map
          fun counts => (counts.1 + limit, counts.2 + group.count)
      else none

/-- `dleaf_check` returns 0, and no assertion in it fails; the comparison with `dleaf_free2` repeats
the two before it. -/
def dleafCheck (leaf : Leaf) : Bool :=
  if leaf.groups.length = 0 then true
  else
    match checkGroups 0 leaf.groups leaf.entries leaf.table with
    | none => false
    | some (excount, encount) =>
        decide (leaf.used = entryOffset blocksize leaf.groups.length encount) &&
          decide (leaf.free = 8 + 8 * excount)

/-! ## Walks -/

/-- `struct dwalk` at a leaf; `gdict` is zero. -/
structure Dwalk where
  group : ℕ
  gstop : ℕ
  entry : ℕ
  estop : ℕ
  exbase : ℕ
  extent : ℕ
  exstop : ℕ
  deriving DecidableEq, Repr

def dwalkFirst (walk : Dwalk) : Bool := walk.extent = 0

def dwalkEnd (walk : Dwalk) : Bool := walk.extent = walk.exstop

def dwalkIndex (leaf : Leaf) (walk : Dwalk) : ℕ :=
  getIndex (leaf.groupAt walk.group).keyhi (leaf.entryAt walk.entry).keylo

def dwalkNext (leaf : Leaf) (walk : Dwalk) : Dwalk × Bool :=
  if dwalkEnd walk then (walk, false)
  else
    let walk := { walk with extent := walk.extent + 1 }
    if walk.extent = walk.exstop then
      if walk.entry = walk.estop ∧ walk.group = walk.gstop then (walk, false)
      else
        let walk :=
          if walk.entry = walk.estop then { walk with
            group := walk.group + 1
            exbase := walk.exbase + (leaf.entryAt walk.estop).limit
            estop := walk.estop + (leaf.groupAt (walk.group + 1)).count }
          else walk
        ({ walk with
          entry := walk.entry + 1
          exstop := walk.exbase + (leaf.entryAt (walk.entry + 1)).limit }, true)
    else (walk, true)

/-- Whether the entry is the first one of its group, and the first extent of the entry. -/
def entryExbase (leaf : Leaf) (walk : Dwalk) : ℕ :=
  if walk.entry - 1 = walk.estop - (leaf.groupAt walk.group).count then walk.exbase
  else walk.exbase + (leaf.entryAt (walk.entry - 1)).limit

def dwalkBack (leaf : Leaf) (walk : Dwalk) : Dwalk × Bool :=
  if dwalkFirst walk then (walk, false)
  else
    let exbase := entryExbase leaf walk
    let walk := { walk with extent := walk.extent - 1 }
    if walk.extent < exbase then
      if walk.extent < walk.exbase ∧ walk.group = 0 then (walk, true)
      else
        let walk :=
          if walk.extent < walk.exbase then { walk with
            group := walk.group - 1
            estop := walk.entry - 1
            exbase := walk.exbase - (leaf.entryAt (walk.entry - 1)).limit }
          else walk
        ({ walk with
          entry := walk.entry - 1
          exstop := walk.exbase + (leaf.entryAt (walk.entry - 1)).limit }, true)
    else (walk, true)

/-! ## Probing -/

/-- Where the loop over the groups in `dwalk_probe` goes. -/
inductive ProbeGroup where
  | noGroup (walk : Dwalk)
  | probeEntry (walk : Dwalk)
  | after (walk : Dwalk)
  deriving DecidableEq, Repr

/-- The loop over the groups, with as many left. -/
def probeGroups (leaf : Leaf) (keyhi keylo : ℕ) : ℕ → Dwalk → ProbeGroup
  | 0, walk => .after walk
  | left + 1, walk =>
      let group := leaf.groupAt (walk.group + 1)
      let walk := { walk with
        group := walk.group + 1
        entry := walk.estop + 1
        estop := walk.estop + group.count }
      if keyhi < group.keyhi then .noGroup walk
      else if group.keyhi = keyhi ∧ keylo < (leaf.entryAt walk.entry).keylo then .noGroup walk
      else if group.keyhi = keyhi ∧ (walk.group = walk.gstop ∨
          keyhi < (leaf.groupAt (walk.group + 1)).keyhi ∨
          keylo < (leaf.entryAt (walk.estop + 1)).keylo) then .probeEntry walk
      else probeGroups leaf keyhi keylo left
        { walk with exbase := walk.exbase + (leaf.entryAt walk.estop).limit }

/-- The first extent of a group and its entry. -/
def atFirst (leaf : Leaf) (walk : Dwalk) : Dwalk :=
  { walk with extent := walk.exbase, exstop := walk.exbase + (leaf.entryAt walk.entry).limit }

/-- The loop over the entries, with as many left. -/
def probeEntries (leaf : Leaf) (keylo : ℕ) : ℕ → Dwalk → Dwalk
  | 0, walk => walk
  | left + 1, walk =>
      if keylo < (leaf.entryAt (walk.entry + 1)).keylo then walk
      else probeEntries leaf keylo left { walk with
        entry := walk.entry + 1
        extent := walk.exstop
        exstop := walk.exbase + (leaf.entryAt (walk.entry + 1)).limit }

/-- `dwalk_probe`. The upper half of the key is an `unsigned`. -/
def dwalkProbe (leaf : Leaf) (key : ℕ) : Dwalk × Bool :=
  let keylo := key % 2 ^ 24
  let keyhi := u32 (key / 2 ^ 24)
  let groups := leaf.groups.length
  let walk : Dwalk := ⟨0, groups, 0, 0, 0, 0, 0⟩
  if groups = 0 then (walk, false)
  else
    match probeGroups leaf keyhi keylo groups walk with
    | .after walk => ({ walk with
        entry := walk.estop
        exstop := walk.exbase
        extent := walk.exbase
        exbase := walk.exbase - (leaf.entryAt walk.estop).limit }, false)
    | .noGroup walk => (atFirst leaf walk, true)
    | .probeEntry walk =>
        let walk := probeEntries leaf keylo (walk.estop - walk.entry) (atFirst leaf walk)
        if key < dwalkIndex leaf walk + (leaf.extentAt walk.extent).count then (walk, true)
        else
          let walk := (dwalkNext leaf walk).1
          (walk, !dwalkEnd walk)

/-! ## Cutting -/

/-- `dwalk_copy`; `none` where an assertion fails. -/
def dwalkCopy (leaf : Leaf) (walk : Dwalk) (dest : Leaf) : Option Leaf :=
  if dest.groups.length ≠ 0 then none
  else if dwalkEnd walk then some dest
  else if dwalkFirst walk then some leaf
  else
    let groups2 := walk.gstop + 1 - walk.group
    let entries := leaf.ebase blocksize + 1 - walk.entry
    let first := walk.entry - 1 = walk.estop - (leaf.groupAt walk.group).count
    let limitAdjust := if first then 0 else (leaf.entryAt (walk.entry - 1)).limit
    let extents := leaf.exend - entryExbase leaf walk
    let gcount2 := walk.estop + 1 - walk.entry
    let copied := (leaf.entries.drop (walk.entry - 1)).take entries
    let dest : Leaf := {
      groups := ((leaf.groups.drop (walk.group - 1)).take groups2).modify 0 fun group =>
        setGroupCount group gcount2
      entries := (copied.take gcount2).map (fun entry => incEntryLimit entry (-limitAdjust)) ++
        copied.drop gcount2
      table := (leaf.table.drop (entryExbase leaf walk)).take extents
      free := 8 + 8 * extents
      used := entryOffset blocksize groups2 entries }
    if dleafCheck blocksize dest then some dest else none

/-- `dwalk_chop`: the leaf and the walk; `none` where an assertion fails. -/
def dwalkChop (leaf : Leaf) (walk : Dwalk) : Option (Leaf × Dwalk) :=
  if dwalkEnd walk then some (leaf, walk)
  else if dwalkFirst walk then
    let leaf : Leaf := ⟨[], [], [], 8, blocksize⟩
    some (leaf, (dwalkProbe leaf 0).1)
  else
    let walk := (dwalkBack leaf walk).1
    let ebase := walk.estop - (leaf.groupAt walk.group).count
    let exstop := walk.exbase + (leaf.entryAt walk.entry).limit
    let leaf : Leaf := {
      groups := (leaf.groups.take walk.group).modify (walk.group - 1) fun group =>
        setGroupCount group (walk.entry - ebase)
      entries := leaf.entries.take walk.entry
      table := leaf.table.take exstop
      free := 8 + 8 * exstop
      used := entryOffset blocksize walk.group walk.entry }
    let walk := { walk with
      estop := walk.entry, gstop := walk.group, exstop := exstop, extent := exstop }
    if dleafCheck blocksize leaf then some (leaf, walk) else none

/-! ## Packing -/

/-- The part of `dwalk_add` that opens a group. -/
def openGroup (leaf : Leaf) (walk : Dwalk) (keyhi : ℕ) : Option (Leaf × Dwalk) :=
  if leaf.free + 4 ≤ leaf.used then
    some ({ leaf with
        groups := leaf.groups.take walk.group ++ [⟨keyhi, 0⟩]
        used := leaf.used - 4 },
      { walk with
        group := walk.group + 1
        exbase := walk.exbase +
          if leaf.groups.length = 0 then 0 else (leaf.entryAt walk.entry).limit })
  else none

/-- `dwalk_add` at the end of a leaf; `none` where an assertion fails. -/
def dwalkAdd (leaf : Leaf) (walk : Dwalk) (index : ℕ) (extent : Extent) : Option (Leaf × Dwalk) :=
  if leaf.groups.length ≠ 0 ∧ dwalkIndex leaf walk = index then none
  else if extent.block = 0 ∨ extent.count = 0 then none
  else
    let keylo := index % 2 ^ 24
    let keyhi := index / 2 ^ 24
    let opened :=
      if leaf.groups.length = 0 ∨ (leaf.groupAt walk.group).keyhi ≠ keyhi ∨
          MAX_GROUP_ENTRIES ≤ (leaf.groupAt walk.group).count then openGroup leaf walk keyhi
      else some (leaf, walk)
    match opened with
    | none => none
    | some (leaf, walk) =>
        if leaf.free + 4 ≤ leaf.used ∧ leaf.free + 8 ≤ leaf.used - 4 then
          let entry : Entry := ⟨keylo, (walk.extent - walk.exbase) % 2 ^ 8⟩
          let leaf : Leaf := {
            groups := leaf.groups.modify (walk.group - 1) fun group => incGroupCount group 1
            entries := leaf.entries.take walk.entry ++ [incEntryLimit entry 1]
            table := leaf.table.take walk.extent ++ [extent]
            free := leaf.free + 8
            used := leaf.used - 4 }
          if dleafCheck blocksize leaf then
            some (leaf, { walk with entry := walk.entry + 1, extent := walk.extent + 1 })
          else none
        else none

/-! ## Merging -/

/-- `dleaf_merge` into the first leaf; `none` where an assertion fails. -/
def dleafMerge (leaf from' : Leaf) : Option Leaf :=
  if from'.groups.length = 0 then some leaf
  else if leaf.groups.length = 0 then some from'
  else
    let gstop := leaf.groupAt leaf.groups.length
    let group2 := from'.groupAt 1
    let room := MAX_GROUP_ENTRIES - gstop.count
    let canTry := gstop.keyhi = group2.keyhi ∧ gstop.count < MAX_GROUP_ENTRIES
    let mergeGcount := if canTry then min group2.count room else 0
    let restGcount := if canTry then group2.count - room else 0
    let canMergeGroup := if canTry ∧ group2.count ≤ room then 1 else 0
    let addgroups := from'.groups.length - canMergeGroup
    let ebase := leaf.ebase blocksize
    let ebase2 := from'.ebase blocksize
    let limitAdjust := (leaf.entryAt ebase).limit
    let limitAdjust2 := (from'.entryAt mergeGcount).limit
    let added := from'.entries.take ebase2
    let added := (added.take mergeGcount).map (fun entry => incEntryLimit entry limitAdjust) ++
      ((added.drop mergeGcount).take restGcount).map
        (fun entry => incEntryLimit entry (-limitAdjust2)) ++
      added.drop (mergeGcount + restGcount)
    let added2 := from'.groups.drop canMergeGroup
    let leaf : Leaf := {
      groups := (if mergeGcount = 0 then leaf.groups
          else leaf.groups.modify (leaf.groups.length - 1) fun group =>
            incGroupCount group mergeGcount) ++
        if restGcount = 0 then added2
        else added2.modify 0 fun group => setGroupCount group restGcount
      entries := leaf.entries.take ebase ++ added
      table := leaf.table.take leaf.exend ++ from'.table.take from'.exend
      free := leaf.free + (from'.free - 8)
      used := leaf.used - 4 * addgroups - 4 * ebase2 }
    if dleafCheck blocksize leaf then some leaf else none

/-! ## Splitting -/

/-- The loop of `dleaf_split_at` over the groups: the entries, the groups and the extents before the
group of the position. -/
def splitGroups (leaf : Leaf) (split : ℕ) : List Group → ℕ → ℕ → ℕ → ℕ × ℕ × ℕ
  | [], recount, grsplit, exsplit => (recount, grsplit, exsplit)
  | group :: groups, recount, grsplit, exsplit =>
      if split < recount + group.count then (recount, grsplit, exsplit)
      else splitGroups leaf split groups (recount + group.count) (grsplit + 1)
        (exsplit + (leaf.entryAt (recount + group.count)).limit)

/-- `dleaf_split_at` at a pointer into the entries: the two leaves and the groups of the second;
`none` where an assertion fails. -/
def dleafSplitAt (from' into : Leaf) (entry : ℕ) : Option (Leaf × Leaf × ℕ) :=
  let groups := from'.groups.length
  let entries := from'.ebase blocksize
  let split := entry - 1
  if groups = 0 then some (from', into, 0)
  else if entry ≤ entries ∧ 0 < entry ∧ split < entries then
    let (recount, grsplit, exsplit) := splitGroups from' split from'.groups 0 0 0
    let cut := split - recount
    let exsplit := exsplit + if cut = 0 then 0 else (from'.entryAt (recount + cut)).limit
    let size := (from'.free - (8 + 8 * exsplit)) / 8
    let groups2 := groups - grsplit
    let groups := grsplit + if cut = 0 then 0 else 1
    let encopy := entries - split
    let copied := (from'.groups.drop grsplit).modify 0 fun group => incGroupCount group (-cut)
    let gcount2 := if cut = 0 then 0 else (copied.getD 0 ⟨0, 0⟩).count
    let moved := (from'.entries.take entries).drop split
    let into : Leaf := {
      groups := copied
      entries := (moved.take gcount2).map
        (fun entry => incEntryLimit entry (-(from'.entryAt split).limit)) ++ moved.drop gcount2
      table := (from'.table.drop exsplit).take size
      free := 8 + 8 * size
      used := entryOffset blocksize groups2 encopy }
    let from' : Leaf := {
      groups := if cut = 0 then from'.groups.take groups
        else (from'.groups.take groups).modify (groups - 1) fun group => setGroupCount group cut
      entries := from'.entries.take split
      table := from'.table.take exsplit
      free := 8 + 8 * exsplit
      used := entryOffset blocksize groups split }
    if dleafCheck blocksize from' ∧ dleafCheck blocksize into then some (from', into, groups2)
    else none
  else none

/-- The index that `dleaf_split` reads from the second leaf and the groups returned. -/
def splitKey (into : Leaf) (groups2 : ℕ) : ℕ :=
  getIndex (into.groupAt 1).keyhi (into.entryAt (groups2 + 1 - into.groups.length)).keylo

/-- `dleaf_split`: the two leaves and the key of the second. -/
def dleafSplit (from' into : Leaf) : Option (Leaf × Leaf × ℕ) :=
  (dleafSplitAt blocksize from' into (from'.ebase blocksize / 2)).map fun split =>
    (split.1, split.2.1, splitKey split.2.1 split.2.2)

/-! ## Truncating -/

def dwalkUpdate (leaf : Leaf) (walk : Dwalk) (extent : Extent) : Leaf :=
  { leaf with table := leaf.table.set walk.extent extent }

/-- The loop of `dleaf_chop` that frees the extents from a walk on, with as many rounds left. -/
def freeExtents (leaf : Leaf) : ℕ → Dwalk → Option (List (ℕ × ℕ))
  | 0, _ => none
  | left + 1, walk =>
      let extent := leaf.extentAt walk.extent
      let next := dwalkNext leaf walk
      if next.2 = true then
        (freeExtents leaf left next.1).map fun freed => (extent.block, extent.count) :: freed
      else some [(extent.block, extent.count)]

/-- The part of `dleaf_chop` from the loop on, behind what is freed already. -/
def chopFrom (leaf : Leaf) (walk : Dwalk) (freed : List (ℕ × ℕ)) :
    Option (Leaf × List (ℕ × ℕ)) :=
  match freeExtents leaf leaf.table.length walk, dwalkChop blocksize leaf walk with
  | some rest, some (leaf, _) =>
      if dleafCheck blocksize leaf then some (leaf, freed ++ rest) else none
  | _, _ => none

/-- `dleaf_chop`: the leaf, and the blocks and counts that `bfree` gets; `none` where an assertion
fails. -/
def dleafChop (leaf : Leaf) (chop : ℕ) : Option (Leaf × List (ℕ × ℕ)) :=
  let probed := dwalkProbe leaf chop
  let walk := probed.1
  if probed.2 = false then some (leaf, [])
  else if dwalkIndex leaf walk < chop then
    let extent := leaf.extentAt walk.extent
    let count := u32 (chop - dwalkIndex leaf walk)
    let freed := [(extent.block + count, u32 (2 ^ 32 + extent.count - count))]
    -- the assertion of `make_extent`
    if count = 0 ∨ 64 < count then none
    else
      let leaf := dwalkUpdate leaf walk ⟨extent.block, count⟩
      let next := dwalkNext leaf walk
      if next.2 = true then chopFrom blocksize leaf next.1 freed
      else if dleafCheck blocksize leaf then some (leaf, freed) else none
  else chopFrom blocksize leaf walk []

end

/-- What `dleaf_chop` returns. -/
def dleafChopReturn (leaf : Leaf) (chop : ℕ) : ℕ := if (dwalkProbe leaf chop).2 = false then 0 else 1

end Tux3.Dleaf
